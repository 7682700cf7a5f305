/-
# A search answers an id once

A node is seen once, and what is found is seen; a comparison of all nodes goes over
each of them once. So no search answers an id twice, with a filter or without
(`nodup_searchWithFilter`). This needs nothing of the vectors, of the distances or of
the graph: they may have any shape.
-/
import Amind.Vector.Filtered

namespace Amind
namespace Vector
namespace HNSWIndex

open Amind.Core

section Queues

variable {F : Type} [Floats F] {ids : List UInt64} {rs rs' : List (SearchResult F)}

/-- Each id is found once, and only of these. -/
def Once (ids : List UInt64) (rs : List (SearchResult F)) : Prop :=
  (rs.map (·.id)).Nodup ∧ ∀ r ∈ rs, r.id ∈ ids

omit [Floats F] in
theorem Once.nil (ids : List UInt64) : Once ids ([] : List (SearchResult F)) := ⟨List.nodup_nil, fun _ h => by cases h⟩

omit [Floats F] in
theorem Once.sublist (h : Once ids rs) (hsub : rs'.Sublist rs) : Once ids rs' :=
  ⟨h.1.sublist (hsub.map _), fun r hr => h.2 r (hsub.subset hr)⟩

omit [Floats F] in
theorem Once.cons (h : Once ids rs) (id : UInt64) : Once (id :: ids) rs :=
  ⟨h.1, fun r hr => List.mem_cons_of_mem id (h.2 r hr)⟩

theorem Once.push (h : Once ids rs) {id : UInt64} (hnew : id ∉ ids) (d : F) :
    Once (id :: ids) (HNSWIndex.push ⟨id, d⟩ rs) := by
  have hperm := push_perm (⟨id, d⟩ : SearchResult F) rs
  refine ⟨(hperm.map (·.id)).nodup_iff.mpr (List.nodup_cons.mpr ⟨fun hmem => ?_, h.1⟩), fun r hr => ?_⟩
  · obtain ⟨r, hr, rfl⟩ := List.mem_map.mp hmem
    exact hnew (h.2 r hr)
  · rcases List.mem_cons.mp (hperm.mem_iff.mp hr) with rfl | hr
    · exact List.mem_cons_self
    · exact List.mem_cons_of_mem id (h.2 r hr)

omit [Floats F] in
theorem cut_sublist (ef : ℕ) (rs : List (SearchResult F)) :
    (if ef < rs.length then rs.dropLast else rs).Sublist rs := by
  split
  · exact List.dropLast_sublist rs
  · exact List.Sublist.refl rs

end Queues

/-! ### The beam -/

section Searching

variable {F : Type} [Floats F] {x : HNSWIndex F} {query : List F} {f : UInt64 → Bool} {ef layer : ℕ} {b b' : Beam F}

/-- What the beam has found is found once, and seen. -/
def Beam.Once (b : Beam F) : Prop := HNSWIndex.Once b.visited b.resultQueue

omit [Floats F] in
theorem Beam.Once.empty : Beam.Once ({} : Beam F) := .nil _

/-- A node is seen, and may be found: what is kept is among it and what was found. -/
theorem Beam.Once.find (h : b.Once) {id : UInt64} (hnew : id ∉ b.visited) {d : F} {rs : List (SearchResult F)}
    (hsub : rs.Sublist (push ⟨id, d⟩ b.resultQueue)) (queue : List (SearchResult F)) :
    Beam.Once ⟨queue, rs, id :: b.visited⟩ := (HNSWIndex.Once.push h hnew d).sublist hsub

omit [Floats F] in
theorem Beam.Once.see (h : b.Once) (id : UInt64) (queue : List (SearchResult F)) :
    Beam.Once ⟨queue, b.resultQueue, id :: b.visited⟩ := HNSWIndex.Once.cons h id

theorem Beam.Once.enter (h : b.Once) {id : UInt64} (hnew : id ∉ b.visited) : (x.enter query f b id).Once := by
  unfold HNSWIndex.enter
  split
  · exact h
  · dsimp only
    split
    · exact h.find hnew (List.Sublist.refl _) _
    · exact h.see id _

theorem Beam.Once.visit (h : b.Once) (id : UInt64) : (x.visit query f ef b id).Once := by
  unfold HNSWIndex.visit
  split
  · exact h
  · rename_i hnew
    split
    · exact h.see id _
    · dsimp only
      split
      · split
        · exact h.find hnew (cut_sublist ef _) _
        · exact h.see id _
      · exact h.see id _

theorem Beam.Once.expand : ∀ (steps : ℕ) {b : Beam F}, b.Once → (x.expand query f ef layer steps b).Once
  | 0, _, h => h
  | steps + 1, b, h => by
    unfold HNSWIndex.expand
    split
    · exact h
    · split
      · exact h
      · rename_i closest queue _ _
        have hstart : Beam.Once { b with candidateQueue := queue } := h
        refine Beam.Once.expand steps ?_
        exact List.foldlRecOn (motive := Beam.Once) _ _ hstart fun b hb id _ => hb.visit id

theorem nodup_searchLayer (entryId : UInt64) : ((x.searchLayer query f ef [entryId] layer).map (·.id)).Nodup :=
  (Beam.Once.expand _ (Beam.Once.empty.enter List.not_mem_nil)).1

/-! ### The beam that may throw -/

theorem Beam.Once.enterChecked (h : b.Once) {id : UInt64} (hnew : id ∉ b.visited)
    (he : Checked.enter x query f b id = some b') : b'.Once := by
  unfold Checked.enter at he
  split at he
  · cases he
    exact h
  · obtain ⟨d, -, rfl⟩ := Option.map_eq_some_iff.mp he
    split
    · exact h.find hnew (List.Sublist.refl _) _
    · exact h.see id _

theorem Beam.Once.visitChecked (h : b.Once) {id : UInt64} (he : Checked.visit x query f ef b id = some b') :
    b'.Once := by
  unfold Checked.visit at he
  split at he
  · cases he
    exact h
  · rename_i hnew
    split at he
    · cases he
      exact h.see id _
    · obtain ⟨d, -, rfl⟩ := Option.map_eq_some_iff.mp he
      dsimp only
      split
      · split
        · exact h.find hnew (cut_sublist ef _) _
        · exact h.see id _
      · exact h.see id _

theorem Beam.Once.visitsChecked : ∀ (ids : List UInt64) {b : Beam F}, b.Once →
    ids.foldlM (Checked.visit x query f ef) b = some b' → b'.Once
  | [], _, h, he => by
    cases he
    exact h
  | id :: ids, b, h, he => by
    rw [List.foldlM_cons] at he
    obtain ⟨b₁, hb₁, he⟩ := Option.bind_eq_some_iff.mp he
    exact Beam.Once.visitsChecked ids (h.visitChecked hb₁) he

theorem Beam.Once.expandChecked : ∀ (steps : ℕ) {b : Beam F}, b.Once →
    Checked.expand x query f ef layer steps b = some b' → b'.Once
  | 0, _, h, he => by
    cases he
    exact h
  | steps + 1, b, h, he => by
    unfold Checked.expand at he
    split at he
    · cases he
      exact h
    · split at he
      · cases he
        exact h
      · rename_i closest queue _ _
        have hstart : Beam.Once { b with candidateQueue := queue } := h
        obtain ⟨b₁, hb₁, he⟩ := Option.bind_eq_some_iff.mp he
        exact Beam.Once.expandChecked steps (hstart.visitsChecked _ hb₁) he

theorem nodup_searchLayerChecked {rs : List (SearchResult F)} {entryId : UInt64}
    (he : Checked.searchLayer x query f ef [entryId] layer = some rs) : (rs.map (·.id)).Nodup := by
  obtain ⟨b, hb, rfl⟩ := Option.map_eq_some_iff.mp he
  obtain ⟨b₁, hb₁, hb⟩ := Option.bind_eq_some_iff.mp hb
  rw [List.foldlM_cons] at hb₁
  obtain ⟨b₂, hb₂, hb₁⟩ := Option.bind_eq_some_iff.mp hb₁
  cases hb₁
  exact ((Beam.Once.empty.enterChecked List.not_mem_nil hb₂).expandChecked _ hb).1

end Searching

/-! ### All searches -/

section All

variable {F : Type} [FloatOps F] {x : HNSWIndex F} {query : List F} {topK : ℕ} {f : UInt64 → Bool}
  {rs rs' : List (SearchResult F)}

theorem Once.keepNearest {ids : List UInt64} (h : Once ids rs) {id : UInt64} (hnew : id ∉ ids)
    (he : x.keepNearest query topK f rs id = some rs') : Once (id :: ids) rs' := by
  unfold HNSWIndex.keepNearest at he
  split at he
  · cases he
    exact h.cons id
  · split at he
    · obtain ⟨d, -, rfl⟩ := Option.map_eq_some_iff.mp he
      split
      · exact h.push hnew d
      · split
        · exact (h.sublist (List.dropLast_sublist rs)).push hnew d
        · exact h.cons id
    · cases he
      exact h.cons id

theorem Once.keepNearests : ∀ {ids seen : List UInt64} {rs : List (SearchResult F)}, Once seen rs → ids.Nodup →
    (∀ id ∈ ids, id ∉ seen) → ids.foldlM (x.keepNearest query topK f) rs = some rs' → (rs'.map (·.id)).Nodup
  | [], _, _, h, _, _, he => by
    cases he
    exact h.1
  | id :: ids, seen, rs, h, hnodup, hnew, he => by
    obtain ⟨hid, hids⟩ := List.nodup_cons.mp hnodup
    rw [List.foldlM_cons] at he
    obtain ⟨rs₁, hrs₁, he⟩ := Option.bind_eq_some_iff.mp he
    refine Once.keepNearests (h.keepNearest (hnew id List.mem_cons_self) hrs₁) hids (fun i hi hmem => ?_) he
    rcases List.mem_cons.mp hmem with rfl | hmem
    · exact hid hi
    · exact hnew i (List.mem_cons_of_mem id hi) hmem

theorem nodup_bruteForceSearch {order : Shuffle} (he : x.bruteForceSearch order query topK f = some rs) :
    (rs.map (·.id)).Nodup :=
  (Once.nil []).keepNearests ((order.perm x.nodes.keys).nodup_iff.mpr x.nodes.keys_nodup) (fun _ _ => List.not_mem_nil)
    he

theorem nodup_search (x : HNSWIndex F) (query : List F) (topK : ℕ) : ((x.search query topK).map (·.id)).Nodup := by
  unfold search
  split
  · exact List.nodup_nil
  · split
    · exact List.nodup_nil
    · exact (nodup_searchLayer _).sublist ((List.take_sublist _ _).map _)

/-- **A search answers an id once.** -/
theorem nodup_searchWithFilter {casts : SizeCasts F} {order : Shuffle} {filter : Option (UInt64 → Bool)}
    (he : x.searchWithFilter casts order query topK filter = some rs) : (rs.map (·.id)).Nodup := by
  unfold searchWithFilter at he
  split at he
  · cases he
    exact nodup_search x query topK
  · split at he
    · cases he
      exact List.nodup_nil
    · split at he
      · exact nodup_bruteForceSearch he
      · unfold searchGraph at he
        obtain ⟨candidates, hlayer, he⟩ := Option.bind_eq_some_iff.mp he
        obtain ⟨entryId, -, hlayer⟩ := Option.bind_eq_some_iff.mp hlayer
        split at he
        · exact nodup_bruteForceSearch he
        · cases he
          exact (nodup_searchLayerChecked hlayer).sublist ((List.take_sublist _ _).map _)

end All

end HNSWIndex
end Vector
end Amind
