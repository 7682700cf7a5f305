/-
# Searching with a filter

The graph is made for searches that may answer any id. Where a filter leaves
few of them, such a search walks far and finds little, so a search with a
filter counts first how many ids it could answer. If they are few it compares
them all. If not it searches the graph, with a wider beam where many ids are
left out, and when that finds too few it compares them all after all.

Whichever way is taken, the answers are as many as were asked for, or all that
pass the filter if they are fewer (`searchWithFilter_answers`): a graph search
that misses some is noticed by the count. This needs a query as long as the
vectors. A search without a filter refuses any other; here the first distance
that is computed throws, unless no active id passes the filter.

The numbers a rate is computed from are converted to floats and back. The
answers do not depend on how.

Key definitions: `HNSWIndex.searchWithFilter`, `HNSWIndex.Answers`.
-/
import Mathlib.Order.Defs.LinearOrder
import Amind.Core.FloatOps
import Amind.Vector.Reach

namespace Amind
namespace Vector
namespace HNSWIndex

open Amind.Core

variable {F : Type}

/-! ### Distances that throw -/

section Checked

variable [Floats F] (x : HNSWIndex F) (query : List F)

/-- The distance to the vector of a node. Every metric throws when the lengths
differ. -/
def distanceTo (n : Node F) : Option F :=
  if query.length = n.vector.length then some (x.config.computeDistance query n.vector) else none

namespace Checked

def greedyPass (layer : ℕ) (entry : UInt64 × F) : Option ((UInt64 × F) × Bool) :=
  (x.neighbors entry.1 layer).foldlM
    (fun best id =>
      match x.getNode id with
      | some n =>
        if n.deleted then some best
        else (x.distanceTo query n).map fun d => if d < best.1.2 then ((id, d), true) else best
      | none => some best)
    (entry, false)

def greedyLoop (layer : ℕ) : ℕ → UInt64 × F → Option UInt64
  | 0, entry => some entry.1
  | passes + 1, entry =>
    (greedyPass x query layer entry).bind fun p => if p.2 then greedyLoop layer passes p.1 else some p.1.1

def greedyClosest (entryId : UInt64) (layer : ℕ) : Option UInt64 :=
  match x.getNode entryId with
  | none => some entryId
  | some n => (x.distanceTo query n).bind fun d => greedyLoop x query layer x.nodes.keys.length (entryId, d)

variable (filter : UInt64 → Bool)

def enter (b : Beam F) (entryId : UInt64) : Option (Beam F) :=
  match x.getNode entryId with
  | none => some b
  | some n => (x.distanceTo query n).map fun d =>
    { candidateQueue := push ⟨entryId, d⟩ b.candidateQueue
      resultQueue := if n.deleted = false ∧ filter entryId then push ⟨entryId, d⟩ b.resultQueue else b.resultQueue
      visited := entryId :: b.visited }

variable (ef : ℕ)

def visit (b : Beam F) (id : UInt64) : Option (Beam F) :=
  if id ∈ b.visited then some b
  else
    match x.getNode id with
    | none => some { b with visited := id :: b.visited }
    | some n => (x.distanceTo query n).map fun d =>
      if b.resultQueue.length < ef ∨ b.resultQueue.getLast?.any (d < ·.distance) then
        if n.deleted = false ∧ filter id then
          let results := push ⟨id, d⟩ b.resultQueue
          { candidateQueue := push ⟨id, d⟩ b.candidateQueue
            resultQueue := if ef < results.length then results.dropLast else results
            visited := id :: b.visited }
        else { b with candidateQueue := push ⟨id, d⟩ b.candidateQueue, visited := id :: b.visited }
      else { b with visited := id :: b.visited }

def expand (layer : ℕ) : ℕ → Beam F → Option (Beam F)
  | 0, b => some b
  | steps + 1, b =>
    match b.candidateQueue with
    | [] => some b
    | closest :: queue =>
      if b.resultQueue.getLast?.any (·.distance < closest.distance) ∧ ef ≤ b.resultQueue.length then some b
      else ((x.neighbors closest.id layer).foldlM (visit x query filter ef) { b with candidateQueue := queue }).bind
        (expand layer steps)

def searchLayer (entryPoints : List UInt64) (layer : ℕ) : Option (List (SearchResult F)) :=
  ((entryPoints.foldlM (enter x query filter) {}).bind
    (expand x query filter ef layer (x.nodes.keys.length + entryPoints.length))).map (·.resultQueue)

end Checked
end Checked

/-! ### The search -/

section Filtered

/-- The conversions between sizes and floats. -/
structure SizeCasts (F : Type) [FloatOps F] where
  ofSize : ℕ → F
  toSize : F → ℕ
  rate_zero : ∀ n, 0 < n → ofSize 0 / ofSize n < 0.07

variable [FloatOps F] (x : HNSWIndex F) (casts : SizeCasts F) (order : Shuffle) (query : List F) (topK : ℕ)

/-- Keep the nearest that pass. -/
def keepNearest (f : UInt64 → Bool) (resultHeap : List (SearchResult F)) (id : UInt64) :
    Option (List (SearchResult F)) :=
  match x.getNode id with
  | none => some resultHeap
  | some n =>
    if n.deleted = false ∧ f id then
      (x.distanceTo query n).map fun d =>
        if resultHeap.length < topK then push ⟨id, d⟩ resultHeap
        else if resultHeap.getLast?.any (d < ·.distance) then push ⟨id, d⟩ resultHeap.dropLast
        else resultHeap
    else some resultHeap

def bruteForceSearch (f : UInt64 → Bool) : Option (List (SearchResult F)) :=
  (order.toFun x.nodes.keys).foldlM (x.keepNearest query topK f) []

def matchCount (f : UInt64 → Bool) : ℕ := (x.nodes.keys.filter fun id => x.contains id && f id).length

def matchRate (f : UInt64 → Bool) : F :=
  if 0 < x.activeCount then casts.ofSize (x.matchCount f) / casts.ofSize x.activeCount else 0

/-- The width of the beam. -/
def adjustedEf (f : UInt64 → Bool) : ℕ :=
  let ef := max topK x.config.efSearch
  let rate := x.matchRate casts f
  if rate < 0.5 then min (casts.toSize (casts.ofSize ef / if rate < 0.1 then 0.1 else rate)) x.activeCount else ef

/-- Search the graph, and compare all if that finds too few. -/
def searchGraph (f : UInt64 → Bool) : Option (List (SearchResult F)) :=
  (((layersDown x.maxLevel 0).foldlM (Checked.greedyClosest x query) x.entryPointId).bind fun entryId =>
    Checked.searchLayer x query f (x.adjustedEf casts topK f) [entryId] 0).bind fun candidates =>
      if (candidates.take topK).length < topK ∧ (candidates.take topK).length < x.matchCount f then
        x.bruteForceSearch order query topK f
      else some (candidates.take topK)

/-- `none` is an exception. -/
def searchWithFilter (filter : Option (UInt64 → Bool)) : Option (List (SearchResult F)) :=
  match filter with
  | none => some (x.search query topK)
  | some f =>
    if x.nodes.keys = [] ∨ x.activeCount = 0 then some []
    else if x.matchRate casts f < 0.07 then x.bruteForceSearch order query topK f
    else x.searchGraph casts order query topK f

end Filtered

/-! ### Where nothing throws -/

/-- Every vector is as long as the query. -/
def Fits (x : HNSWIndex F) (query : List F) : Prop := ∀ id n, x.getNode id = some n → query.length = n.vector.length

section Fits

variable [Floats F] {x : HNSWIndex F} {query : List F} {filter : UInt64 → Bool} {ef layer : ℕ}

omit [Floats F] in
theorem Fits.distanceTo (hq : x.Fits query) {id : UInt64} {n : Node F} (hn : x.getNode id = some n) :
    x.distanceTo query n = some (x.config.computeDistance query n.vector) :=
  if_pos (hq id n hn)

omit [Floats F] in
theorem foldlM_some {α β : Type} (f : β → α → β) (b : β) (l : List α) :
    l.foldlM (fun b a => some (f b a)) b = some (l.foldl f b) :=
  List.foldlM_pure

theorem Fits.greedyPass (hq : x.Fits query) (entry : UInt64 × F) :
    Checked.greedyPass x query layer entry = some (x.greedyPass query layer entry) := by
  unfold HNSWIndex.greedyPass Checked.greedyPass
  rw [← foldlM_some]
  congr 1
  funext best id
  cases hn : x.getNode id with
  | none => rfl
  | some n =>
    dsimp only
    rw [hq.distanceTo hn]
    by_cases hd : n.deleted = true
    · rw [if_pos hd, if_pos hd]
    · rw [if_neg hd, if_neg hd]
      rfl

theorem Fits.greedyLoop (hq : x.Fits query) : ∀ (passes : ℕ) (entry : UInt64 × F),
    Checked.greedyLoop x query layer passes entry = some (x.greedyLoop query layer passes entry)
  | 0, _ => rfl
  | passes + 1, entry => by
    unfold HNSWIndex.greedyLoop Checked.greedyLoop
    rw [hq.greedyPass, Option.bind_some]
    split
    · exact hq.greedyLoop passes _
    · rfl

theorem Fits.greedyClosest (hq : x.Fits query) (entryId : UInt64) :
    Checked.greedyClosest x query entryId layer = some (x.greedyClosest query entryId layer) := by
  unfold HNSWIndex.greedyClosest Checked.greedyClosest
  cases hn : x.getNode entryId with
  | none => rfl
  | some n =>
    dsimp only
    rw [hq.distanceTo hn]
    exact hq.greedyLoop _ _

theorem Fits.enter (hq : x.Fits query) (b : Beam F) (entryId : UInt64) :
    Checked.enter x query filter b entryId = some (x.enter query filter b entryId) := by
  unfold HNSWIndex.enter Checked.enter
  cases hn : x.getNode entryId with
  | none => rfl
  | some n =>
    dsimp only
    rw [hq.distanceTo hn]
    rfl

theorem Fits.visit (hq : x.Fits query) (b : Beam F) (id : UInt64) :
    Checked.visit x query filter ef b id = some (x.visit query filter ef b id) := by
  unfold HNSWIndex.visit Checked.visit
  by_cases hseen : id ∈ b.visited
  · rw [if_pos hseen, if_pos hseen]
  · rw [if_neg hseen, if_neg hseen]
    cases hn : x.getNode id with
    | none => rfl
    | some n =>
      dsimp only
      rw [hq.distanceTo hn]
      rfl

theorem Fits.expand (hq : x.Fits query) : ∀ (steps : ℕ) (b : Beam F),
    Checked.expand x query filter ef layer steps b = some (x.expand query filter ef layer steps b)
  | 0, _ => rfl
  | steps + 1, b => by
    unfold HNSWIndex.expand Checked.expand
    cases b.candidateQueue with
    | nil => rfl
    | cons closest queue =>
      dsimp only
      split
      · rfl
      · have hvisit : Checked.visit x query filter ef = fun b id => some (x.visit query filter ef b id) :=
          funext fun b => funext fun id => hq.visit b id
        rw [hvisit, foldlM_some]
        exact hq.expand steps _

theorem Fits.searchLayer (hq : x.Fits query) (entryPoints : List UInt64) :
    Checked.searchLayer x query filter ef entryPoints layer =
      some (x.searchLayer query filter ef entryPoints layer) := by
  have henter : Checked.enter x query filter = fun b id => some (x.enter query filter b id) :=
    funext fun b => funext fun id => hq.enter b id
  unfold HNSWIndex.searchLayer Checked.searchLayer
  rw [henter, foldlM_some, Option.bind_some, hq.expand]
  rfl

/-- The descent and the search of the lowest layer. -/
theorem Fits.descend (hq : x.Fits query) (layers : List ℕ) (entryId : UInt64) :
    layers.foldlM (Checked.greedyClosest x query) entryId = some (layers.foldl (x.greedyClosest query) entryId) := by
  have hclosest : Checked.greedyClosest x query = fun id layer => some (x.greedyClosest query id layer) :=
    funext fun id => funext fun layer => hq.greedyClosest id
  rw [hclosest, foldlM_some]

end Fits

/-! ### Queues kept nearest first -/

section Queues

variable [Floats F]

theorem push_perm (r : SearchResult F) : ∀ l : List (SearchResult F), (push r l).Perm (r :: l)
  | [] => .refl _
  | y :: ys => by
    unfold push
    split
    · exact .refl _
    · exact ((push_perm r ys).cons y).trans (.swap r y ys)

/-- No distance is smaller than one before it. -/
def NearestFirst (l : List (SearchResult F)) : Prop := l.Pairwise fun a b => ¬ b.distance < a.distance

theorem NearestFirst.push [Std.IsLinearPreorder F] [Std.LawfulOrderLT F] {r : SearchResult F} :
    ∀ {l : List (SearchResult F)}, NearestFirst l → NearestFirst (push r l)
  | [], _ => List.pairwise_singleton _ _
  | y :: ys, h => by
    have hys := List.pairwise_cons.mp h
    unfold HNSWIndex.push
    split
    · rename_i hlt
      refine List.pairwise_cons.mpr ⟨fun z hz => ?_, h⟩
      have hry : r.distance ≤ y.distance := Std.le_of_lt hlt
      rw [Std.not_lt]
      rcases List.mem_cons.mp hz with rfl | hz
      · exact hry
      · exact Std.le_trans hry (Std.not_lt.mp (hys.1 z hz))
    · rename_i hge
      refine List.pairwise_cons.mpr ⟨fun z hz => ?_, NearestFirst.push hys.2⟩
      rcases mem_push hz with rfl | hz
      · exact hge
      · exact hys.1 z hz

end Queues

/-! ### The loops end by themselves -/

section Ends

variable [Floats F] {x : HNSWIndex F} {query : List F} {layer : ℕ}

theorem Beam.left_visits {filter : UInt64 → Bool} {ef : ℕ} : ∀ (ids : List UInt64) (b : Beam F),
    (ids.foldl (x.visit query filter ef) b).left x ≤ b.left x
  | [], _ => le_rfl
  | id :: ids, b => (Beam.left_visits ids _).trans (b.left_visit id)

/-- Every node is expanded once: more steps than nodes change nothing. -/
theorem expand_enough {filter : UInt64 → Bool} {ef : ℕ} (more : ℕ) : ∀ (steps : ℕ) (b : Beam F), b.left x ≤ steps →
    x.expand query filter ef layer (steps + more) b = x.expand query filter ef layer steps b
  | 0, b, h => by
    have hqueue : b.candidateQueue = [] := List.length_eq_zero_iff.mp (by unfold Beam.left at h; omega)
    cases more with
    | zero => rfl
    | succ more =>
      rw [Nat.zero_add]
      unfold expand
      rw [hqueue]
  | steps + 1, b, h => by
    rw [Nat.succ_add]
    unfold expand
    split
    · rfl
    · rename_i closest queue hqueue
      split
      · rfl
      · refine expand_enough more steps _ ((Beam.left_visits _ _).trans ?_)
        unfold Beam.left at h ⊢
        rw [hqueue, List.length_cons] at h
        dsimp only
        omega

/-- What a pass finds is a node that is closer, or what it started from. -/
theorem greedyPass_spec [Std.IsLinearPreorder F] [Std.LawfulOrderLT F] (x : HNSWIndex F) (query : List F) (layer : ℕ)
    (entry : UInt64 × F) :
    ((x.greedyPass query layer entry).2 = true ∧ (x.greedyPass query layer entry).1.2 < entry.2 ∧
      ∃ n, x.getNode (x.greedyPass query layer entry).1.1 = some n ∧
        (x.greedyPass query layer entry).1.2 = x.config.computeDistance query n.vector) ∨
    x.greedyPass query layer entry = (entry, false) := by
  unfold greedyPass
  refine List.foldlRecOn (motive := fun best : (UInt64 × F) × Bool =>
    (best.2 = true ∧ best.1.2 < entry.2 ∧ ∃ n, x.getNode best.1.1 = some n ∧
      best.1.2 = x.config.computeDistance query n.vector) ∨ best = (entry, false)) _ _ (.inr rfl) ?_
  intro best hbest id _
  split
  · rename_i n hn
    split
    · exact hbest
    · split
      · rename_i hlt
        refine .inl ⟨rfl, ?_, n, hn, rfl⟩
        rcases hbest with ⟨-, hcloser, -⟩ | rfl
        · exact Std.lt_trans hlt hcloser
        · exact hlt
      · exact hbest
  · exact hbest

/-- The nodes closer than a distance. -/
def closer (x : HNSWIndex F) (query : List F) (d : F) : Finset UInt64 :=
  x.nodes.keys.toFinset.filter fun id => (x.getNode id).any fun n => x.config.computeDistance query n.vector < d

theorem mem_closer {d : F} {id : UInt64} :
    id ∈ x.closer query d ↔ ∃ n, x.getNode id = some n ∧ x.config.computeDistance query n.vector < d := by
  rw [closer, Finset.mem_filter, List.mem_toFinset]
  cases hn : x.getNode id with
  | none => simp
  | some n =>
    have hkey : id ∈ x.nodes.keys := AList.lookup_isSome.mp (Option.isSome_of_eq_some hn)
    simp [hkey]

/-- No node is come to twice: more passes than nodes change nothing. -/
theorem greedyLoop_enough [Std.IsLinearPreorder F] [Std.LawfulOrderLT F] (more : ℕ) :
    ∀ (passes : ℕ) (entry : UInt64 × F), (x.closer query entry.2).card < passes →
    x.greedyLoop query layer (passes + more) entry = x.greedyLoop query layer passes entry
  | passes + 1, entry, h => by
    rw [Nat.succ_add]
    unfold greedyLoop
    rcases greedyPass_spec x query layer entry with ⟨himproved, hlt, n, hn, hd⟩ | hsame
    · rw [if_pos himproved, if_pos himproved]
      generalize x.greedyPass query layer entry = p at *
      -- the node come to is closer than the one left, and not closer than itself
      have hless : x.closer query p.1.2 ⊂ x.closer query entry.2 := by
        refine (Finset.ssubset_iff_of_subset fun id hid => ?_).mpr
          ⟨p.1.1, mem_closer.mpr ⟨n, hn, hd ▸ hlt⟩, fun hmem => ?_⟩
        · obtain ⟨m, hm, hmd⟩ := mem_closer.mp hid
          exact mem_closer.mpr ⟨m, hm, Std.lt_trans hmd hlt⟩
        · obtain ⟨m, hm, hmd⟩ := mem_closer.mp hmem
          rw [hn] at hm
          rw [← Option.some.inj hm, ← hd] at hmd
          exact Std.lt_irrefl hmd
      exact greedyLoop_enough more passes _ ((Finset.card_lt_card hless).trans_le (Nat.lt_succ_iff.mp h))
    · rw [hsame]
      rfl

/-- The passes of `greedyClosest` are enough: the node it starts from is not closer
than itself. -/
theorem greedyClosest_enough {id : UInt64} {n : Node F} [Std.IsLinearPreorder F] [Std.LawfulOrderLT F]
    (hn : x.getNode id = some n) (more : ℕ) :
    x.greedyLoop query layer (x.nodes.keys.length + more) (id, x.config.computeDistance query n.vector) =
      x.greedyClosest query id layer := by
  have hkey : id ∈ x.nodes.keys.toFinset :=
    List.mem_toFinset.mpr (AList.lookup_isSome.mp (Option.isSome_of_eq_some hn))
  have hself : id ∉ x.closer query (x.config.computeDistance query n.vector) := by
    intro hmem
    obtain ⟨m, hm, hmd⟩ := mem_closer.mp hmem
    rw [hn] at hm
    rw [← Option.some.inj hm] at hmd
    exact Std.lt_irrefl hmd
  have hless : x.closer query (x.config.computeDistance query n.vector) ⊂ x.nodes.keys.toFinset :=
    (Finset.ssubset_iff_of_subset (Finset.filter_subset _ _)).mpr ⟨id, hkey, hself⟩
  unfold greedyClosest
  rw [hn]
  exact greedyLoop_enough more _ _ ((Finset.card_lt_card hless).trans_le (List.toFinset_card_le _))

/-- And so are the steps of `searchLayer`. -/
theorem searchLayer_enough {filter : UInt64 → Bool} {ef : ℕ} (entryId : UInt64) (more : ℕ) :
    (x.expand query filter ef layer (x.nodes.keys.length + 1 + more) (x.enter query filter {} entryId)).resultQueue =
      x.searchLayer query filter ef [entryId] layer := by
  have hleft : (x.enter query filter {} entryId).left x ≤ x.nodes.keys.length + 1 := by
    have hcard := List.toFinset_card_le x.nodes.keys
    unfold enter
    cases hn : x.getNode entryId with
    | none => exact Nat.le_succ_of_le hcard
    | some n =>
      have hpush := Beam.left_push_le (b := ({} : Beam F)) hn List.not_mem_nil
        ⟨entryId, x.config.computeDistance query n.vector⟩
      exact (hpush _).trans (Nat.le_succ_of_le hcard)
  rw [expand_enough more _ _ hleft]
  rfl

end Ends

/-! ### What is answered -/

/-- The active ids that pass the filter. -/
def matching (x : HNSWIndex F) (f : UInt64 → Bool) : Finset UInt64 := x.activeIds.filter fun id => f id = true

/-- Active ids that pass the filter, each once, with their distances, nearest
first. -/
structure Answers [Floats F] (x : HNSWIndex F) (query : List F) (f : UInt64 → Bool) (rs : List (SearchResult F)) :
    Prop where
  distinct : (rs.map (·.id)).Nodup
  matching : ∀ r ∈ rs, r.id ∈ x.matching f
  distance : ∀ r ∈ rs, ∃ n, x.getNode r.id = some n ∧ r.distance = x.config.computeDistance query n.vector
  sorted : NearestFirst rs

section Answers

variable [Floats F] {x : HNSWIndex F} {query : List F} {f : UInt64 → Bool} {rs rs' : List (SearchResult F)}

omit [Floats F] in
theorem mem_matching {id : UInt64} : id ∈ x.matching f ↔ x.contains id = true ∧ f id = true := by
  rw [matching, Finset.mem_filter, mem_activeIds]

omit [Floats F] in
theorem mem_matching_of_getNode {id : UInt64} {n : Node F} (hn : x.getNode id = some n) :
    id ∈ x.matching f ↔ n.deleted = false ∧ f id = true := by
  rw [mem_matching, contains_of_getNode hn]

theorem Answers.nil : x.Answers query f [] :=
  ⟨List.nodup_nil, fun _ h => absurd h List.not_mem_nil, fun _ h => absurd h List.not_mem_nil, List.Pairwise.nil⟩

theorem Answers.sublist (h : x.Answers query f rs) (hsub : rs'.Sublist rs) : x.Answers query f rs' where
  distinct := h.distinct.sublist (hsub.map _)
  matching r hr := h.matching r (hsub.subset hr)
  distance r hr := h.distance r (hsub.subset hr)
  sorted := h.sorted.sublist hsub

theorem Answers.push [Std.IsLinearPreorder F] [Std.LawfulOrderLT F] (h : x.Answers query f rs) {id : UInt64}
    {n : Node F} (hn : x.getNode id = some n) (hpass : n.deleted = false ∧ f id = true) (hnew : id ∉ rs.map (·.id)) :
    x.Answers query f (HNSWIndex.push ⟨id, x.config.computeDistance query n.vector⟩ rs) where
  distinct := by
    have hnodup : (((⟨id, x.config.computeDistance query n.vector⟩ : SearchResult F) :: rs).map (·.id)).Nodup :=
      List.nodup_cons.mpr ⟨hnew, h.distinct⟩
    exact ((push_perm _ rs).map (·.id)).nodup_iff.mpr hnodup
  matching r hr := by
    rcases mem_push hr with rfl | hr
    · exact (mem_matching_of_getNode hn).mpr hpass
    · exact h.matching r hr
  distance r hr := by
    rcases mem_push hr with rfl | hr
    · exact ⟨n, hn, rfl⟩
    · exact h.distance r hr
  sorted := h.sorted.push

theorem Answers.length_le (h : x.Answers query f rs) : rs.length ≤ (x.matching f).card := by
  have hsub : (rs.map (·.id)).toFinset ⊆ x.matching f := by
    intro id hid
    obtain ⟨r, hr, rfl⟩ := List.mem_map.mp (List.mem_toFinset.mp hid)
    exact h.matching r hr
  calc rs.length = (rs.map (·.id)).toFinset.card := by rw [List.toFinset_card_of_nodup h.distinct, List.length_map]
    _ ≤ (x.matching f).card := Finset.card_le_card hsub

/-! ### The beam -/

/-- What the beam has found are answers, and all of them are seen. -/
structure Beam.Answering (x : HNSWIndex F) (query : List F) (f : UInt64 → Bool) (b : Beam F) : Prop where
  answers : x.Answers query f b.resultQueue
  seen : ∀ id ∈ b.resultQueue.map (·.id), id ∈ b.visited

variable {b : Beam F}

theorem Beam.Answering.push [Std.IsLinearPreorder F] [Std.LawfulOrderLT F] (h : b.Answering x query f) {id : UInt64}
    {n : Node F} (hn : x.getNode id = some n) (hpass : n.deleted = false ∧ f id = true) (hnew : id ∉ b.visited)
    {queue : List (SearchResult F)}
    (hsub : rs.Sublist (HNSWIndex.push ⟨id, x.config.computeDistance query n.vector⟩ b.resultQueue)) :
    Beam.Answering x query f ⟨queue, rs, id :: b.visited⟩ where
  answers := (h.answers.push hn hpass fun hmem => hnew (h.seen id hmem)).sublist hsub
  seen id' hid := by
    obtain ⟨r, hr, rfl⟩ := List.mem_map.mp hid
    rcases mem_push (hsub.subset hr) with rfl | hr
    · exact List.mem_cons_self
    · exact List.mem_cons_of_mem _ (h.seen _ (List.mem_map_of_mem hr))

/-- A node that is seen and not answered. -/
theorem Beam.Answering.see (h : b.Answering x query f) (id : UInt64) (queue : List (SearchResult F)) :
    Beam.Answering x query f ⟨queue, b.resultQueue, id :: b.visited⟩ :=
  ⟨h.answers, fun id' hid => List.mem_cons_of_mem _ (h.seen id' hid)⟩

variable [Std.IsLinearPreorder F] [Std.LawfulOrderLT F]

theorem Beam.Answering.enter (h : b.Answering x query f) {id : UInt64} (hnew : id ∉ b.visited) :
    (x.enter query f b id).Answering x query f := by
  unfold HNSWIndex.enter
  split
  · exact h
  · rename_i n hn
    dsimp only
    split
    · rename_i hpass
      exact h.push hn hpass hnew (List.Sublist.refl _)
    · exact h.see id _

theorem Beam.Answering.visit {ef : ℕ} (h : b.Answering x query f) (id : UInt64) :
    (x.visit query f ef b id).Answering x query f := by
  unfold HNSWIndex.visit
  split
  · exact h
  · rename_i hnew
    split
    · exact h.see id _
    · rename_i n hn
      dsimp only
      split
      · split
        · rename_i hpass
          refine h.push hn hpass hnew ?_
          split
          · exact List.dropLast_sublist _
          · exact List.Sublist.refl _
        · exact h.see id _
      · exact h.see id _

theorem Beam.Answering.expand {ef layer : ℕ} : ∀ (steps : ℕ) (b : Beam F), b.Answering x query f →
    (x.expand query f ef layer steps b).Answering x query f
  | 0, _, h => h
  | steps + 1, b, h => by
    unfold HNSWIndex.expand
    split
    · exact h
    · rename_i closest queue _
      split
      · exact h
      · refine Beam.Answering.expand steps _ ?_
        exact List.foldlRecOn (motive := fun b => Beam.Answering x query f b) _ _ ⟨h.answers, h.seen⟩
          fun b hb id _ => hb.visit id

theorem answers_searchLayer {ef layer : ℕ} (entryId : UInt64) :
    x.Answers query f (x.searchLayer query f ef [entryId] layer) := by
  have hempty : Beam.Answering x query f {} := ⟨.nil, fun _ h => absurd h List.not_mem_nil⟩
  exact (Beam.Answering.expand _ _ (hempty.enter List.not_mem_nil)).answers

end Answers

/-! ### Comparing them all -/

section All

variable [FloatOps F] {x : HNSWIndex F} {query : List F} {topK : ℕ} {f : UInt64 → Bool}

omit [FloatOps F] in
theorem matchCount_eq : x.matchCount f = (x.matching f).card := by
  have hset : (x.nodes.keys.filter fun id => x.contains id && f id).toFinset = x.matching f := by
    refine Finset.ext fun id => ?_
    rw [List.mem_toFinset, List.mem_filter, Bool.and_eq_true, mem_matching]
    refine ⟨fun h => h.2, fun h => ⟨?_, h⟩⟩
    exact List.mem_toFinset.mp (Finset.mem_filter.mp (mem_activeIds.mpr h.1)).1
  have hnodup : (x.nodes.keys.filter fun id => x.contains id && f id).Nodup := x.nodes.nodupKeys.filter _
  rw [← hset, List.toFinset_card_of_nodup hnodup, matchCount]

/-- A node that passes is kept, or it is farther than as many as are kept. -/
theorem Answers.keepNearest [Std.IsLinearPreorder F] [Std.LawfulOrderLT F] (hq : x.Fits query)
    {heap : List (SearchResult F)} (h : x.Answers query f heap) {id : UInt64} (hnew : id ∉ heap.map (·.id))
    (hle : heap.length ≤ topK) :
    ∃ rs, x.keepNearest query topK f heap id = some rs ∧ x.Answers query f rs ∧
      (∀ i ∈ rs.map (·.id), i = id ∨ i ∈ heap.map (·.id)) ∧
      rs.length = min topK (heap.length + if (x.contains id && f id) = true then 1 else 0) := by
  have hpushed : ∀ {d : F} {rs : List (SearchResult F)}, rs.Sublist heap →
      ∀ i ∈ (HNSWIndex.push ⟨id, d⟩ rs).map (·.id), i = id ∨ i ∈ heap.map (·.id) := by
    intro d rs hsub i hi
    obtain ⟨r, hr, rfl⟩ := List.mem_map.mp hi
    rcases mem_push hr with rfl | hr
    · exact .inl rfl
    · exact .inr (List.mem_map_of_mem (hsub.subset hr))
  have hsame : ¬(x.contains id && f id) = true →
      heap.length = min topK (heap.length + if (x.contains id && f id) = true then 1 else 0) := by
    intro hout
    rw [if_neg hout]
    omega
  unfold HNSWIndex.keepNearest
  cases hn : x.getNode id with
  | none =>
    have hout : x.contains id = false := by rw [contains, hn]; rfl
    exact ⟨heap, rfl, h, fun i hi => .inr hi, hsame (by simp [hout])⟩
  | some n =>
    dsimp only
    have hin : (x.contains id && f id) = true ↔ n.deleted = false ∧ f id = true := by
      rw [Bool.and_eq_true, contains_of_getNode hn]
    by_cases hpass : n.deleted = false ∧ f id = true
    · rw [if_pos hpass, hq.distanceTo hn, Option.map_some, if_pos (hin.mpr hpass)]
      by_cases hlt : heap.length < topK
      · rw [if_pos hlt]
        refine ⟨_, rfl, h.push hn hpass hnew, hpushed (List.Sublist.refl _), ?_⟩
        rw [length_push]
        omega
      · rw [if_neg hlt]
        by_cases hcloser : heap.getLast?.any (x.config.computeDistance query n.vector < ·.distance) = true
        · -- the node takes the place of the farthest
          rw [if_pos hcloser]
          have hne : heap ≠ [] := by
            rintro rfl
            exact Bool.false_ne_true hcloser
          have hpos := List.length_pos_of_ne_nil hne
          have hsub := List.dropLast_sublist heap
          refine ⟨_, rfl, (h.sublist hsub).push hn hpass fun hmem => hnew ((hsub.map _).subset hmem), hpushed hsub, ?_⟩
          rw [length_push, List.length_dropLast]
          omega
        · rw [if_neg hcloser]
          exact ⟨heap, rfl, h, fun i hi => .inr hi, by omega⟩
    · rw [if_neg hpass]
      exact ⟨heap, rfl, h, fun i hi => .inr hi, hsame fun hmem => hpass (hin.mp hmem)⟩

/-- The loop over the nodes. `ids` are those left. -/
theorem Answers.keepNearests [Std.IsLinearPreorder F] [Std.LawfulOrderLT F] (hq : x.Fits query) :
    ∀ (ids : List UInt64) (heap : List (SearchResult F)), ids.Nodup → x.Answers query f heap →
      (∀ id ∈ heap.map (·.id), id ∉ ids) → heap.length ≤ topK →
      ∃ rs, ids.foldlM (x.keepNearest query topK f) heap = some rs ∧ x.Answers query f rs ∧
        rs.length = min topK (heap.length + ids.countP fun id => x.contains id && f id)
  | [], heap, _, h, _, hle => ⟨heap, rfl, h, (min_eq_right hle).symm⟩
  | id :: ids, heap, hnodup, h, hnew, hle => by
    rw [List.nodup_cons] at hnodup
    obtain ⟨kept, hkept, hka, hkmem, hklen⟩ := h.keepNearest hq (fun hmem => hnew id hmem List.mem_cons_self) hle
    have hknew : ∀ i ∈ kept.map (·.id), i ∉ ids := by
      intro i hi
      rcases hkmem i hi with rfl | hi
      · exact hnodup.1
      · exact fun hmem => hnew i hi (List.mem_cons_of_mem _ hmem)
    obtain ⟨rs, hrs, ha, hlen⟩ := Answers.keepNearests hq ids kept hnodup.2 hka hknew (by omega)
    refine ⟨rs, ?_, ha, ?_⟩
    · rw [List.foldlM_cons, hkept]
      exact hrs
    · rw [hlen, hklen, List.countP_cons]
      omega

theorem answers_bruteForceSearch [Std.IsLinearPreorder F] [Std.LawfulOrderLT F] (hq : x.Fits query) (order : Shuffle) :
    ∃ rs, x.bruteForceSearch order query topK f = some rs ∧ x.Answers query f rs ∧
      rs.length = min topK (x.matching f).card := by
  have hperm := order.perm x.nodes.keys
  have hnil : ([] : List (SearchResult F)).length ≤ topK := Nat.zero_le _
  obtain ⟨rs, hrs, ha, hlen⟩ := Answers.keepNearests hq (order.toFun x.nodes.keys) []
    (hperm.nodup_iff.mpr x.nodes.nodupKeys) (Answers.nil : x.Answers query f [])
    (fun _ h => absurd h List.not_mem_nil) hnil
  refine ⟨rs, hrs, ha, hlen.trans ?_⟩
  rw [List.length_nil, Nat.zero_add, hperm.countP_eq, List.countP_eq_length_filter, ← matchCount_eq, matchCount]

end All

/-! ### Where a distance throws -/

/-- No vector is as long as the query. -/
def Misfits (x : HNSWIndex F) (query : List F) : Prop := ∀ id n, x.getNode id = some n → query.length ≠ n.vector.length

section Misfits

variable [FloatOps F] {x : HNSWIndex F} {query : List F} {topK : ℕ} {f : UInt64 → Bool}

theorem foldlM_none {α β : Type} {f : β → α → Option β} {a : α} (hf : ∀ b, f b a = none) :
    ∀ (l : List α) (b : β), a ∈ l → l.foldlM f b = none
  | c :: l, b, h => by
    rw [List.foldlM_cons]
    rcases List.mem_cons.mp h with rfl | h
    · rw [hf]
      rfl
    · cases f b c with
      | none => rfl
      | some b' => exact foldlM_none hf l b' h

omit [FloatOps F] in
theorem Misfits.distanceTo (hq : x.Misfits query) {id : UInt64} {n : Node F} (hn : x.getNode id = some n) :
    x.distanceTo query n = none :=
  if_neg (hq id n hn)

theorem Misfits.bruteForceSearch (hq : x.Misfits query) (order : Shuffle) (hsome : x.matching f ≠ ∅) :
    x.bruteForceSearch order query topK f = none := by
  obtain ⟨id, hid⟩ := Finset.nonempty_iff_ne_empty.mpr hsome
  have hkey : id ∈ x.nodes.keys := by
    refine List.mem_toFinset.mp (Finset.mem_filter.mp (mem_activeIds.mpr (mem_matching.mp hid).1)).1
  refine foldlM_none (fun heap => ?_) _ _ ((order.perm _).mem_iff.mpr hkey)
  unfold keepNearest
  cases hn : x.getNode id with
  | none =>
    have hout := (mem_matching.mp hid).1
    rw [contains, hn] at hout
    cases hout
  | some n =>
    dsimp only
    rw [if_pos ((mem_matching_of_getNode hn).mp hid), hq.distanceTo hn]
    rfl

theorem Misfits.searchGraph (hq : x.Misfits query) (casts : SizeCasts F) (order : Shuffle) {e : Node F}
    (he : x.getNode x.entryPointId = some e) : x.searchGraph casts order query topK f = none := by
  unfold HNSWIndex.searchGraph
  cases hlayers : layersDown x.maxLevel 0 with
  | nil =>
    have henter : Checked.enter x query f {} x.entryPointId = none := by
      unfold Checked.enter
      rw [he]
      dsimp only
      rw [hq.distanceTo he]
      rfl
    rw [List.foldlM_nil, Option.pure_def, Option.bind_some, Checked.searchLayer, List.foldlM_cons, henter]
    rfl
  | cons layer layers =>
    have hclosest : Checked.greedyClosest x query x.entryPointId layer = none := by
      unfold Checked.greedyClosest
      rw [he]
      dsimp only
      rw [hq.distanceTo he]
      rfl
    rw [List.foldlM_cons, hclosest]
    rfl

end Misfits

/-! ### The answers of a search with a filter -/

section Search

variable [FloatOps F] {x : HNSWIndex F} {query : List F} {topK : ℕ} {f : UInt64 → Bool} (casts : SizeCasts F)
  (order : Shuffle)

omit [FloatOps F] in
theorem Shaped.matching_eq_empty (hx : x.Shaped) (h : x.nodes.keys = [] ∨ x.activeCount = 0) : x.matching f = ∅ := by
  refine Finset.eq_empty_of_forall_notMem fun id hid => ?_
  have hactive := (Finset.mem_filter.mp hid).1
  rcases h with h | h
  · have hkey := (Finset.mem_filter.mp hactive).1
    rw [h] at hkey
    cases hkey
  · rw [hx.active, Finset.card_eq_zero] at h
    rw [h] at hactive
    cases hactive

/-- The graph is searched, and what is missing is noticed by the count. -/
theorem answers_searchGraph [Std.IsLinearPreorder F] [Std.LawfulOrderLT F] (hq : x.Fits query) :
    ∃ rs, x.searchGraph casts order query topK f = some rs ∧ x.Answers query f rs ∧
      rs.length = min topK (x.matching f).card := by
  unfold searchGraph
  rw [hq.descend, Option.bind_some, hq.searchLayer, Option.bind_some]
  generalize (layersDown x.maxLevel 0).foldl (x.greedyClosest query) x.entryPointId = entryId
  have ha : x.Answers query f ((x.searchLayer query f (x.adjustedEf casts topK f) [entryId] 0).take topK) :=
    (answers_searchLayer entryId).sublist (List.take_sublist _ _)
  have hle := ha.length_le
  rw [matchCount_eq]
  split
  · exact answers_bruteForceSearch hq order
  · rename_i hfull
    have htake : ((x.searchLayer query f (x.adjustedEf casts topK f) [entryId] 0).take topK).length ≤ topK :=
      List.length_take_le _ _
    exact ⟨_, rfl, ha, by omega⟩

theorem Shaped.searchWithFilter [Std.IsLinearPreorder F] [Std.LawfulOrderLT F] (hx : x.Shaped) (hq : x.Fits query) :
    ∃ rs, x.searchWithFilter casts order query topK (some f) = some rs ∧ x.Answers query f rs ∧
      rs.length = min topK (x.matching f).card := by
  unfold HNSWIndex.searchWithFilter
  dsimp only
  split
  · rename_i hempty
    exact ⟨[], rfl, .nil, by rw [hx.matching_eq_empty hempty, Finset.card_empty, Nat.min_zero, List.length_nil]⟩
  · split
    · exact answers_bruteForceSearch hq order
    · exact answers_searchGraph casts order hq

theorem foldlM_same {α β : Type} {f : β → α → Option β} (hf : ∀ a b, f b a = some b) : ∀ (l : List α) (b : β),
    l.foldlM f b = some b
  | [], _ => rfl
  | a :: l, b => by
    rw [List.foldlM_cons, hf]
    exact foldlM_same hf l b

/-- Without matches every node is compared, which computes no distance. -/
theorem searchWithFilter_unmatched (hnone : x.matching f = ∅) :
    x.searchWithFilter casts order query topK (some f) = some [] := by
  have hcount : x.matchCount f = 0 := by rw [matchCount_eq, hnone, Finset.card_empty]
  unfold searchWithFilter
  dsimp only
  split
  · rfl
  · rename_i hsome
    have hpos : 0 < x.activeCount := Nat.pos_of_ne_zero fun h => hsome (.inr h)
    have hrate : x.matchRate casts f < 0.07 := by
      rw [matchRate, if_pos hpos, hcount]
      exact casts.rate_zero _ hpos
    rw [if_pos hrate, bruteForceSearch]
    refine foldlM_same (fun id heap => ?_) _ _
    unfold keepNearest
    cases hn : x.getNode id with
    | none => rfl
    | some n =>
      refine if_neg fun hpass => ?_
      have hmem := (mem_matching_of_getNode hn).mpr hpass
      rw [hnone] at hmem
      cases hmem

theorem Shaped.searchWithFilter_throws (hx : x.Shaped) (hq : x.Misfits query) (hsome : x.matching f ≠ ∅) :
    x.searchWithFilter casts order query topK (some f) = none := by
  unfold HNSWIndex.searchWithFilter
  dsimp only
  split
  · rename_i hempty
    exact absurd (hx.matching_eq_empty hempty) hsome
  · rename_i hnodes
    split
    · exact hq.bruteForceSearch order hsome
    · obtain ⟨e, he, -⟩ := hx.entry fun h => hnodes (.inl h)
      exact hq.searchGraph casts order he

theorem shaped_ops (config : HNSWConfig F) (ops : List (Op F)) :
    (Run.run step { config := config } ops).Shaped ∧ (Run.run step { config := config } ops).config = config :=
  Run.run_inv step (I := fun _ x => x.Shaped ∧ x.config = config) (C := fun _ _ => True)
    (fun _ x op hi _ => by
      cases op with
      | insert id v l => exact ⟨hi.1.insert, config_insert.trans hi.2⟩
      | remove id => exact ⟨hi.1.remove id, config_remove.trans hi.2⟩)
    ops [] _ ⟨shaped_new config, rfl⟩ (Run.along_true _ _)

/-- **A search with a filter answers as many ids as were asked for, or all that
pass if they are fewer**, when the query is as long as the vectors. When it is not
it throws, unless no active id passes. -/
theorem searchWithFilter_answers [Std.IsLinearPreorder F] [Std.LawfulOrderLT F] (config : HNSWConfig F)
    (ops : List (Op F)) (query : List F) (topK : ℕ) (_hk : 1 ≤ topK) (f : UInt64 → Bool) :
    let x := Run.run step { config := config } ops
    (query.length = config.dimension ∨ x.matching f = ∅ →
      ∃ rs, x.searchWithFilter casts order query topK (some f) = some rs ∧ x.Answers query f rs ∧
        rs.length = min topK (x.matching f).card) ∧
    (query.length ≠ config.dimension → x.matching f ≠ ∅ →
      x.searchWithFilter casts order query topK (some f) = none) := by
  intro x
  obtain ⟨hx, hconfig⟩ := shaped_ops config ops
  constructor
  · rintro (hq | hnone)
    · refine hx.searchWithFilter casts order fun id n hn => ?_
      rw [hx.vectors id n hn, hconfig]
      exact hq
    · exact ⟨[], searchWithFilter_unmatched casts order hnone, .nil, by simp [hnone]⟩
  · intro hq hsome
    refine hx.searchWithFilter_throws casts order (fun id n hn => ?_) hsome
    rw [hx.vectors id n hn, hconfig]
    exact hq

end Search

/-! ### Two searches -/

def exactCasts : SizeCasts ℚ where
  ofSize n := n
  toSize q := q.floor.toNat
  rate_zero n _ := by
    show (0 : ℚ) / n < 0.07
    rw [zero_div]
    norm_num

def inOrder : Shuffle := ⟨id, fun _ => .refl _⟩

/-- Points of a line, and their distance. -/
def points : HNSWConfig ℚ :=
  { dimension := 1, computeDistance := fun v w => |v.headD 0 - w.headD 0| }

/-- Of the ids 1, 2 and 3 the first is removed, and the filter lets the odd ones
pass. -/
theorem searchWithFilter_odd :
    let x := Run.run step { config := points } [.insert 1 [5] 0, .insert 2 [6] 0, .insert 3 [9] 0, .remove 1]
    ∃ rs, x.searchWithFilter exactCasts inOrder [7] 2 (some fun id => id % 2 = 1) = some rs ∧
      x.Answers [7] (fun id => id % 2 = 1) rs ∧ rs.length = min 2 (x.matching fun id => id % 2 = 1).card :=
  (searchWithFilter_answers exactCasts inOrder points _ [7] 2 (by decide) _).1 (.inl rfl)

/-- A query that is too long throws. -/
theorem searchWithFilter_long :
    (Run.run step { config := points } [.insert 1 [5] 0]).matching (fun _ => true) = {1} ∧
    (Run.run step { config := points } [.insert 1 [5] 0]).searchWithFilter exactCasts inOrder [5, 6] 1
      (some fun _ => true) = none := by
  have hmatching : (Run.run step { config := points } [.insert 1 [5] 0]).matching (fun _ => true) = {1} := by decide
  obtain ⟨hx, hconfig⟩ := shaped_ops points [.insert 1 [5] 0]
  refine ⟨hmatching, hx.searchWithFilter_throws _ _ (fun id n hn => ?_) ?_⟩
  · rw [hx.vectors id n hn, hconfig]
    decide
  · rw [hmatching]
    decide

end HNSWIndex
end Vector
end Amind
