/-
# Searches that nothing falls out of

A search of the lowest layer whose beam has room for every node that links lead to
from where it starts (`Within`) finds all active ones of these, each once, and no
others (`searchLayer_wide`).

What a node is linked to then are the nearest of what such a search finds
(`selectNeighbors_wide`).
-/
import Amind.Vector.Reach
import Amind.Vector.Filtered

namespace Amind
namespace Vector
namespace HNSWIndex

open Amind.Core

variable {F : Type} [Floats F] {x : HNSWIndex F} {query : List F} {ef : ℕ} {b : Beam F} {e : UInt64}

/-- All active nodes seen are found. Every node seen is one that links lead to from
`e`, and is to be expanded still, or all its neighbours are seen, but for the node
`c` that is being expanded. -/
structure Beam.Wide (x : HNSWIndex F) (e : UInt64) (c : Option UInt64) (b : Beam F) : Prop where
  distinct : (b.resultQueue.map (·.id)).Nodup
  found : ∀ id, id ∈ b.resultQueue.map (·.id) ↔ id ∈ b.visited ∧ x.contains id = true
  led : ∀ id ∈ b.visited, x.Leads e id
  queued : ∀ id ∈ b.candidateQueue.map (·.id), id ∈ b.visited
  closed : ∀ id ∈ b.visited,
    some id = c ∨ id ∈ b.candidateQueue.map (·.id) ∨ ∀ i ∈ x.neighbors id 0, i ∈ b.visited

theorem map_id_push (r : SearchResult F) (l : List (SearchResult F)) :
    ((push r l).map (·.id)).Perm (r.id :: l.map (·.id)) := (push_perm r l).map _

omit [Floats F] in
theorem mem_keys_of_contains {id : UInt64} (h : x.contains id = true) : id ∈ x.nodes.keys := by
  obtain ⟨n, hn, -⟩ := Option.map_eq_some_iff.mp (contains_iff.mp h)
  exact AList.lookup_isSome.mp (Option.isSome_of_eq_some hn)

/-- Links lead from `e` to `k` nodes at most. -/
def Within (x : HNSWIndex F) (e : UInt64) (k : ℕ) : Prop :=
  ∀ l : List UInt64, l.Nodup → (∀ id ∈ l, id ∈ x.nodes.keys ∧ x.Leads e id) → l.length ≤ k

omit [Floats F] in
theorem within_keys {k : ℕ} (h : x.nodes.keys.length ≤ k) : x.Within e k := fun _ hnodup hin =>
  (hnodup.subperm fun id hid => (hin id hid).1).length_le.trans h

omit [Floats F] in
/-- What is found are nodes. -/
theorem Beam.Wide.nodes {c : Option UInt64} (h : b.Wide x e c) :
    ∀ id ∈ b.resultQueue.map (·.id), id ∈ x.nodes.keys ∧ x.Leads e id := by
  intro id hid
  obtain ⟨hseen, hact⟩ := (h.found id).mp hid
  exact ⟨mem_keys_of_contains hact, h.led id hseen⟩

omit [Floats F] in
/-- There is room for a node that is not found yet. -/
theorem Beam.Wide.room (hef : x.Within e ef) {c : Option UInt64} (h : b.Wide x e c) {id : UInt64}
    (hid : id ∈ x.nodes.keys) (hled : x.Leads e id) (hnew : id ∉ b.resultQueue.map (·.id)) :
    b.resultQueue.length < ef := by
  have hlen := hef (id :: b.resultQueue.map (·.id)) (List.nodup_cons.mpr ⟨hnew, h.distinct⟩) fun i hi => by
    rcases List.mem_cons.mp hi with rfl | hi
    · exact ⟨hid, hled⟩
    · exact h.nodes i hi
  rwa [List.length_cons, List.length_map] at hlen

omit [Floats F] in
/-- A node that is not active is seen, and to be expanded if it is a node. -/
theorem Beam.Wide.see {c : Option UInt64} (h : b.Wide x e c) {id : UInt64} (hid : x.contains id = false)
    (hled : x.Leads e id) {queue : List (SearchResult F)}
    (hqueue : ∀ i ∈ b.candidateQueue.map (·.id), i ∈ queue.map (·.id))
    (hqueued : ∀ i ∈ queue.map (·.id), i ∈ id :: b.visited)
    (hopen : id ∈ queue.map (·.id) ∨ x.neighbors id 0 = []) :
    Beam.Wide x e c ⟨queue, b.resultQueue, id :: b.visited⟩ where
  distinct := h.distinct
  found i := by
    rw [h.found, List.mem_cons]
    constructor
    · exact fun hi => ⟨.inr hi.1, hi.2⟩
    · rintro ⟨rfl | hi, hact⟩
      · rw [hid] at hact
        cases hact
      · exact ⟨hi, hact⟩
  led i hi := by
    rcases List.mem_cons.mp hi with rfl | hi
    · exact hled
    · exact h.led i hi
  queued := hqueued
  closed i hi := by
    rcases List.mem_cons.mp hi with rfl | hi
    · rcases hopen with hopen | hnone
      · exact .inr (.inl hopen)
      · exact .inr (.inr fun j hj => by rw [hnone] at hj; cases hj)
    · rcases h.closed i hi with hc | hq | hall
      · exact .inl hc
      · exact .inr (.inl (hqueue i hq))
      · exact .inr (.inr fun j hj => List.mem_cons_of_mem _ (hall j hj))

/-- An active node is found, and to be expanded. -/
theorem Beam.Wide.find {c : Option UInt64} (h : b.Wide x e c) {r : SearchResult F} (hact : x.contains r.id = true)
    (hled : x.Leads e r.id) (hnew : r.id ∉ b.visited) :
    Beam.Wide x e c ⟨push r b.candidateQueue, push r b.resultQueue, r.id :: b.visited⟩ where
  distinct := (map_id_push r _).nodup_iff.mpr
    (List.nodup_cons.mpr ⟨fun hmem => hnew ((h.found r.id).mp hmem).1, h.distinct⟩)
  found i := by
    rw [(map_id_push r _).mem_iff, List.mem_cons, h.found, List.mem_cons]
    constructor
    · rintro (rfl | hi)
      · exact ⟨.inl rfl, hact⟩
      · exact ⟨.inr hi.1, hi.2⟩
    · rintro ⟨rfl | hi, hi'⟩
      · exact .inl rfl
      · exact .inr ⟨hi, hi'⟩
  led i hi := by
    rcases List.mem_cons.mp hi with rfl | hi
    · exact hled
    · exact h.led i hi
  queued i hi := by
    rcases List.mem_cons.mp ((map_id_push r _).mem_iff.mp hi) with rfl | hi
    · exact List.mem_cons_self
    · exact List.mem_cons_of_mem _ (h.queued i hi)
  closed i hi := by
    rcases List.mem_cons.mp hi with rfl | hi
    · exact .inr (.inl ((map_id_push r _).mem_iff.mpr List.mem_cons_self))
    · rcases h.closed i hi with hc | hq | hall
      · exact .inl hc
      · exact .inr (.inl ((map_id_push r _).mem_iff.mpr (List.mem_cons_of_mem _ hq)))
      · exact .inr (.inr fun j hj => List.mem_cons_of_mem _ (hall j hj))

/-- Looking at a neighbour. -/
theorem Beam.Wide.visit (query : List F) (hef : x.Within e ef) {c : Option UInt64} (h : b.Wide x e c) {id : UInt64}
    (hled : x.Leads e id) :
    (x.visit query (fun _ => true) ef b id).Wide x e c ∧ id ∈ (x.visit query (fun _ => true) ef b id).visited ∧
      ∀ i ∈ b.visited, i ∈ (x.visit query (fun _ => true) ef b id).visited := by
  unfold HNSWIndex.visit
  split
  · rename_i hseen
    exact ⟨h, hseen, fun i hi => hi⟩
  · rename_i hnew
    split
    · rename_i hn
      have hnone : x.neighbors id 0 = [] := by
        unfold neighbors
        rw [hn]
        rfl
      have hid : x.contains id = false := by
        rw [contains, hn]
        rfl
      exact ⟨h.see hid hled (fun i hi => hi) (fun i hi => List.mem_cons_of_mem _ (h.queued i hi)) (.inr hnone),
        List.mem_cons_self, fun i hi => List.mem_cons_of_mem _ hi⟩
    · rename_i n hn
      have hkey : id ∈ x.nodes.keys := AList.lookup_isSome.mp (Option.isSome_of_eq_some hn)
      have hroom := h.room hef hkey hled fun hmem => hnew ((h.found id).mp hmem).1
      dsimp only
      rw [if_pos (.inl (by omega))]
      split
      · rename_i hmark
        have hact : x.contains id = true := (contains_of_getNode hn).mpr hmark.1
        rw [if_neg (by rw [length_push]; omega)]
        exact ⟨h.find (r := ⟨id, x.config.computeDistance query n.vector⟩) hact hled hnew, List.mem_cons_self,
          fun i hi => List.mem_cons_of_mem _ hi⟩
      · rename_i hmark
        have hid : x.contains id = false := by
          rw [Bool.eq_false_iff, Ne, contains_of_getNode hn]
          exact fun hd => hmark ⟨hd, rfl⟩
        have hpush := map_id_push ⟨id, x.config.computeDistance query n.vector⟩ b.candidateQueue
        refine ⟨h.see hid hled (fun i hi => hpush.mem_iff.mpr (List.mem_cons_of_mem _ hi)) (fun i hi => ?_)
          (.inl (hpush.mem_iff.mpr List.mem_cons_self)), List.mem_cons_self, fun i hi => List.mem_cons_of_mem _ hi⟩
        rcases List.mem_cons.mp (hpush.mem_iff.mp hi) with rfl | hi
        · exact List.mem_cons_self
        · exact List.mem_cons_of_mem _ (h.queued i hi)

/-- Looking at neighbours one after the other. -/
theorem Beam.Wide.visits (query : List F) (hef : x.Within e ef) {c : Option UInt64} :
    ∀ (ids : List UInt64) (b : Beam F), b.Wide x e c → (∀ i ∈ ids, x.Leads e i) →
    (ids.foldl (x.visit query (fun _ => true) ef) b).Wide x e c ∧
      (∀ i ∈ ids, i ∈ (ids.foldl (x.visit query (fun _ => true) ef) b).visited) ∧
      ∀ i ∈ b.visited, i ∈ (ids.foldl (x.visit query (fun _ => true) ef) b).visited
  | [], _, h, _ => ⟨h, fun i hi => absurd hi List.not_mem_nil, fun i hi => hi⟩
  | id :: ids, b, h, hled => by
    rw [List.foldl_cons]
    obtain ⟨hb, hid, hkeep⟩ := h.visit query hef (hled id List.mem_cons_self)
    obtain ⟨hb', hids, hkeep'⟩ := Beam.Wide.visits query hef ids _ hb fun i hi => hled i (List.mem_cons_of_mem _ hi)
    refine ⟨hb', fun i hi => ?_, fun i hi => hkeep' i (hkeep i hi)⟩
    rcases List.mem_cons.mp hi with rfl | hi
    · exact hkeep' _ hid
    · exact hids i hi

/-- What a beam with room for every node has found in the end: the active nodes that
links lead to. -/
def Beam.Whole (x : HNSWIndex F) (e : UInt64) (b : Beam F) : Prop :=
  (b.resultQueue.map (·.id)).Nodup ∧
    ∀ id, id ∈ b.resultQueue.map (·.id) ↔ x.Leads e id ∧ x.contains id = true

omit [Floats F] in
/-- Nothing is left to expand. -/
theorem Beam.Wide.whole (h : b.Wide x e none) (he : e ∈ b.visited) (hqueue : b.candidateQueue = []) : b.Whole x e := by
  have hall : ∀ id, x.Leads e id → id ∈ b.visited := by
    intro id hid
    induction hid with
    | refl => exact he
    | @tail j i _ hstep ih =>
      rcases h.closed j ih with hc | hq | hnext
      · cases hc
      · rw [hqueue] at hq
        cases hq
      · exact hnext i hstep
  refine ⟨h.distinct, fun id => ?_⟩
  rw [h.found]
  exact and_congr_left fun _ => ⟨h.led id, hall id⟩

omit [Floats F] in
/-- All there is has been found. -/
theorem Beam.Wide.full (hef : x.Within e ef) (h : b.Wide x e none) (hfull : ef ≤ b.resultQueue.length) :
    b.Whole x e := by
  refine ⟨h.distinct, fun id => ⟨fun hid => ?_, fun hid => ?_⟩⟩
  · obtain ⟨hseen, hact⟩ := (h.found id).mp hid
    exact ⟨h.led id hseen, hact⟩
  · by_contra hnew
    exact Nat.not_lt.mpr hfull (h.room hef (mem_keys_of_contains hid.2) hid.1 hnew)

theorem Beam.Wide.expand (hef : x.Within e ef) : ∀ (steps : ℕ) (b : Beam F), b.Wide x e none →
    e ∈ b.visited → b.left x ≤ steps → (x.expand query (fun _ => true) ef 0 steps b).Whole x e
  | 0, b, h, he, hleft => by
    refine h.whole he (List.length_eq_zero_iff.mp ?_)
    unfold Beam.left at hleft
    omega
  | steps + 1, b, h, he, hleft => by
    unfold HNSWIndex.expand
    split
    · rename_i hqueue
      exact h.whole he hqueue
    · rename_i closest queue hqueue
      split
      · rename_i hstop
        exact h.full hef hstop.2
      · have hopen : ({ b with candidateQueue := queue } : Beam F).Wide x e (some closest.id) := by
          refine ⟨h.distinct, h.found, h.led, fun id hid => h.queued id ?_, fun id hid => ?_⟩
          · rw [hqueue]
            exact List.mem_cons_of_mem _ hid
          · rcases h.closed id hid with hc | hq | hall
            · cases hc
            · rw [hqueue, List.map_cons] at hq
              rcases List.mem_cons.mp hq with rfl | hq
              · exact .inl rfl
              · exact .inr (.inl hq)
            · exact .inr (.inr hall)
        have hseen : closest.id ∈ b.visited := h.queued _ (by rw [hqueue]; exact List.mem_cons_self)
        have hled : ∀ i ∈ x.neighbors closest.id 0, x.Leads e i := fun i hi => (h.led _ hseen).tail hi
        obtain ⟨hb, hids, hkeep⟩ := Beam.Wide.visits query hef _ _ hopen hled
        have hclosed : Beam.Wide x e none ((x.neighbors closest.id 0).foldl (x.visit query (fun _ => true) ef)
            { b with candidateQueue := queue }) := by
          refine ⟨hb.distinct, hb.found, hb.led, hb.queued, fun id hid => ?_⟩
          rcases hb.closed id hid with hc | hrest
          · rw [Option.some.inj hc]
            exact .inr (.inr hids)
          · exact .inr hrest
        refine Beam.Wide.expand hef steps _ hclosed (hkeep e he) ?_
        have hless : ((x.neighbors closest.id 0).foldl (x.visit query (fun _ => true) ef)
            { b with candidateQueue := queue }).left x ≤ ({ b with candidateQueue := queue } : Beam F).left x :=
          Beam.left_visits _ _
        unfold Beam.left at hless hleft ⊢
        rw [hqueue, List.length_cons] at hleft
        dsimp only at hless
        omega

/-- **A search whose beam has room for every node that links lead to finds all active
ones of these**, each once. -/
theorem searchLayer_wide (query : List F) (hef : x.Within e ef) {n : Node F} (hn : x.getNode e = some n) :
    ((x.searchLayer query (fun _ => true) ef [e] 0).map (·.id)).Nodup ∧
      ∀ id, id ∈ (x.searchLayer query (fun _ => true) ef [e] 0).map (·.id) ↔ x.Leads e id ∧ x.contains id = true := by
  have hempty : Beam.Wide x e none ({} : Beam F) :=
    ⟨List.nodup_nil, fun id => ⟨fun h => absurd h List.not_mem_nil, fun h => absurd h.1 List.not_mem_nil⟩,
      fun _ h => absurd h List.not_mem_nil, fun _ h => absurd h List.not_mem_nil, fun _ h => absurd h List.not_mem_nil⟩
  have hleft : (x.enter query (fun _ => true) {} e).left x ≤ x.nodes.keys.length + 1 := by
    have hcard := List.toFinset_card_le x.nodes.keys
    have hpush := Beam.left_push_le (b := ({} : Beam F)) hn List.not_mem_nil
      ⟨e, x.config.computeDistance query n.vector⟩
    unfold enter
    rw [hn]
    exact (hpush _).trans (Nat.le_succ_of_le hcard)
  have hstart : (x.enter query (fun _ => true) {} e).Wide x e none ∧
      e ∈ (x.enter query (fun _ => true) {} e).visited := by
    unfold enter
    rw [hn]
    dsimp only
    split
    · rename_i hmark
      exact ⟨hempty.find (r := ⟨e, x.config.computeDistance query n.vector⟩) ((contains_of_getNode hn).mpr hmark.1)
        .refl List.not_mem_nil, List.mem_cons_self⟩
    · rename_i hmark
      have hid : x.contains e = false := by
        rw [Bool.eq_false_iff, Ne, contains_of_getNode hn]
        exact fun hd => hmark ⟨hd, rfl⟩
      have hpush := map_id_push ⟨e, x.config.computeDistance query n.vector⟩ ([] : List (SearchResult F))
      refine ⟨hempty.see hid .refl (fun i hi => absurd hi List.not_mem_nil) (fun i hi => ?_)
        (.inl (hpush.mem_iff.mpr List.mem_cons_self)), List.mem_cons_self⟩
      exact hpush.mem_iff.mp hi
  exact Beam.Wide.expand hef _ _ hstart.1 hstart.2 hleft

/-- The ids of the candidates, nearest first. -/
theorem map_id_sorted (candidates : List (SearchResult F)) :
    ((candidates.foldl (fun sorted r => push r sorted) []).map (·.id)).Perm (candidates.map (·.id)) := by
  have hfold : ∀ (l sorted : List (SearchResult F)),
      (l.foldl (fun sorted r => push r sorted) sorted).Perm (l ++ sorted) := by
    intro l
    induction l with
    | nil => exact fun sorted => .refl sorted
    | cons r l ih =>
      intro sorted
      rw [List.foldl_cons]
      exact (ih _).trans (((push_perm r sorted).append_left l).trans List.perm_middle)
  have h := hfold candidates []
  rw [List.append_nil] at h
  exact h.map _

/-- Of candidates that are active all are selected if they are few enough, and
else as many as are asked for. -/
theorem selectNeighbors_wide {candidates : List (SearchResult F)} (hnodup : (candidates.map (·.id)).Nodup)
    (hact : ∀ id ∈ candidates.map (·.id), x.contains id = true) (maxConn : ℕ) :
    (x.selectNeighbors candidates maxConn).Nodup ∧
      (x.selectNeighbors candidates maxConn).length = min maxConn candidates.length ∧
      (∀ id ∈ x.selectNeighbors candidates maxConn, id ∈ candidates.map (·.id)) ∧
      (candidates.length ≤ maxConn → ∀ id ∈ candidates.map (·.id), id ∈ x.selectNeighbors candidates maxConn) := by
  have hperm := map_id_sorted candidates
  have hfilter : ((candidates.foldl (fun sorted r => push r sorted) []).map (·.id)).filter x.contains =
      (candidates.foldl (fun sorted r => push r sorted) []).map (·.id) :=
    List.filter_eq_self.mpr fun id hid => hact id (hperm.mem_iff.mp hid)
  have hlen : ((candidates.foldl (fun sorted r => push r sorted) []).map (·.id)).length = candidates.length := by
    rw [hperm.length_eq, List.length_map]
  unfold selectNeighbors
  rw [hfilter]
  refine ⟨(hperm.nodup_iff.mpr hnodup).sublist (List.take_sublist _ _), ?_, fun id hid => ?_, fun hle id hid => ?_⟩
  · rw [List.length_take, hlen]
  · exact hperm.mem_iff.mp (List.mem_of_mem_take hid)
  · rw [List.take_of_length_le (hlen.trans_le hle)]
    exact hperm.mem_iff.mpr hid

end HNSWIndex
end Vector
end Amind
