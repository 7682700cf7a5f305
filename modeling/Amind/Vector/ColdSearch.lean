/-
# Searching the cold tier

A search of the tier compares the query with every entry. It keeps the nearest so far in
a queue with the farthest of them on top, and sorts them in the end. Which of several
that are equally far is on top, and in what order they are answered, is left open.

The metrics throw where the lengths of two vectors differ, and one of them where they
are empty. Neither appending nor searching looks at a length before.

After any appends and removals a search of the tier answers nearest entries or throws
(`nearest_run`).

Key definitions: `ColdTierIndex.searchChecked`, `ColdTierIndex.Nearest`.
-/
import Amind.Lib.Checked
import Amind.Lib.PriorityQueue
import Amind.Lib.Run
import Amind.Vector.ColdTier
import Amind.Vector.Filtered

namespace Amind
namespace Vector

open Amind.Core

inductive DistanceMetric
  | cosine
  | l2
  | innerProduct
  deriving DecidableEq

/-- What a metric throws for two vectors that it does not compare. -/
def DistanceMetric.refuses {F : Type} (metric : DistanceMetric) (a b : List F) : Option String :=
  match metric with
  | .cosine =>
    if a.length ≠ b.length then some "cosineSimilarity: dimension mismatch"
    else if a.length = 0 then some "cosineSimilarity: empty vectors"
    else none
  | .l2 => if a.length ≠ b.length then some "l2DistanceSquared: dimension mismatch" else none
  | .innerProduct => if a.length ≠ b.length then some "innerProduct: dimension mismatch" else none

namespace ColdTierIndex

variable {F S : Type}

/-! ### The loop over the entries -/

section Search

variable [Floats F] (t : ColdTierIndex F) (metric : DistanceMetric)
  (heap : PriorityQueue S fun r : SearchResult F => r.distance) (order : Sorting fun r : SearchResult F => r.distance)
  (query : List F) (topK : ℕ)

def distanceTo (vector : List F) : Checked String F :=
  match metric.refuses query vector with
  | some what => .error (.thrown what)
  | none => .ok (t.computeDistance query vector)

/-- Keep an entry if there is room, or in the place of the farthest. That of an empty
queue is undefined. -/
def consider (s : S) (entry : ColdEntry F) : Checked String S := do
  let dist ← t.distanceTo metric query entry.vector
  if heap.size s < topK then .ok (heap.push ⟨entry.id, dist⟩ s)
  else
    match heap.top s with
    | none => .error .outside
    | some farthest => .ok (if dist < farthest.distance then heap.push ⟨entry.id, dist⟩ (heap.pop s) else s)

/-- `search`, with the throws of the metric, for any queue and any way to sort. -/
def searchChecked : Checked String (List (SearchResult F)) :=
  if t.entries.isEmpty then .ok []
  else do
    let s ← t.entries.foldlM (t.consider metric heap query topK) heap.empty
    .ok (order.sort (heap.drain (heap.size s) s))

/-- The answer for an entry. -/
def result (entry : ColdEntry F) : SearchResult F := ⟨entry.id, t.computeDistance query entry.vector⟩

variable {t metric query topK}

theorem consider_eq (hk : 1 ≤ topK) {entry : ColdEntry F} (he : metric.refuses query entry.vector = none) (s : S) :
    t.consider metric heap query topK s entry = .ok (heap.keep topK s (t.result query entry)) := by
  have hdist : t.distanceTo metric query entry.vector = .ok (t.computeDistance query entry.vector) := by
    rw [distanceTo, he]
  rw [consider, hdist, Checked.ok_bind, PriorityQueue.keep]
  by_cases hroom : heap.size s < topK
  · rw [if_pos hroom, if_pos hroom]
    rfl
  · obtain ⟨farthest, htop⟩ := PriorityQueue.exists_top (q := heap) (s := s) (by omega)
    rw [if_neg hroom, if_neg hroom, htop]
    rfl

theorem consider_refused {entry : ColdEntry F} {what : String} (he : metric.refuses query entry.vector = some what)
    (s : S) : t.consider metric heap query topK s entry = .error (.thrown what) := by
  have hdist : t.distanceTo metric query entry.vector = .error (.thrown what) := by rw [distanceTo, he]
  rw [consider, hdist, Checked.error_bind]

/-- The loop keeps one entry after the other. -/
theorem foldlM_consider (hk : 1 ≤ topK) : ∀ (es : List (ColdEntry F)) (s : S),
    (∀ e ∈ es, metric.refuses query e.vector = none) →
      es.foldlM (t.consider metric heap query topK) s = .ok ((es.map (t.result query)).foldl (heap.keep topK) s)
  | [], _, _ => rfl
  | e :: es, s, h => by
    obtain ⟨he, hes⟩ := List.forall_mem_cons.mp h
    rw [List.foldlM_cons, consider_eq heap hk he, Checked.ok_bind, foldlM_consider hk es _ hes]
    rfl

/-- It ends at the first that is refused. -/
theorem foldlM_consider_refused (hk : 1 ≤ topK) {what : String} : ∀ (es : List (ColdEntry F)) (s : S),
    (es.findSome? fun e => metric.refuses query e.vector) = some what →
      es.foldlM (t.consider metric heap query topK) s = .error (.thrown what)
  | [], _, h => by cases h
  | e :: es, s, h => by
    rw [List.foldlM_cons]
    cases he : metric.refuses query e.vector with
    | some what' =>
      simp only [List.findSome?_cons, he] at h
      rw [consider_refused heap he, Checked.error_bind, Option.some.inj h]
    | none =>
      simp only [List.findSome?_cons, he] at h
      rw [consider_eq heap hk he, Checked.ok_bind, foldlM_consider_refused hk es _ h]

/-- Least of the answers for all entries are found, if none is refused. -/
theorem searchChecked_eq [Std.IsLinearPreorder F] [Std.LawfulOrderLT F] (hk : 1 ≤ topK)
    (h : ∀ e ∈ t.entries, metric.refuses query e.vector = none) :
    ∃ rs, t.searchChecked metric heap order query topK = .ok rs ∧
      Least (fun r : SearchResult F => r.distance) topK (t.entries.map (t.result query)) rs ∧
      HNSWIndex.NearestFirst rs := by
  unfold searchChecked
  split
  · next hempty =>
    rw [List.isEmpty_iff.mp hempty]
    exact ⟨[], rfl, .nil, .nil⟩
  · have hloop := foldlM_consider (t := t) heap hk t.entries heap.empty h
    rw [hloop, Checked.ok_bind]
    have hdrained := PriorityQueue.drain_perm (q := heap) _ (heap.keepAll topK (t.entries.map (t.result query))) rfl
    exact ⟨_, rfl, (Least.keepAll heap topK _).of_perm ((order.perm _).trans hdrained), order.sorted _⟩

/-- A search throws what the metric does at the first entry that is refused. -/
theorem searchChecked_refused (hk : 1 ≤ topK) {what : String}
    (h : (t.entries.findSome? fun e => metric.refuses query e.vector) = some what) :
    t.searchChecked metric heap order query topK = .error (.thrown what) := by
  unfold searchChecked
  split
  · next hempty =>
    rw [List.isEmpty_iff.mp hempty] at h
    cases h
  · rw [foldlM_consider_refused heap hk t.entries heap.empty h, Checked.error_bind]

/-! ### Nearest entries -/

/-- Answers are entries, each once and with its distance, as many as are asked for or
all, and no entry that is left out is closer. -/
structure Nearest (t : ColdTierIndex F) (query : List F) (topK : ℕ) (rs : List (SearchResult F)) : Prop where
  length : rs.length = min topK t.size
  distinct : (rs.map fun r => r.id).Nodup
  entry : ∀ r ∈ rs, ∃ e ∈ t.entries, r = t.result query e
  closest : ∀ e ∈ t.entries, e.id ∉ (rs.map fun r => r.id) → ∀ r ∈ rs, ¬ t.computeDistance query e.vector < r.distance
  sorted : HNSWIndex.NearestFirst rs

/-- Least of the answers for all entries are nearest ones. -/
theorem Consistent.nearest (h : t.Consistent) {rs : List (SearchResult F)}
    (hleast : Least (fun r : SearchResult F => r.distance) topK (t.entries.map (t.result query)) rs)
    (hsorted : HNSWIndex.NearestFirst rs) : t.Nearest query topK rs where
  length := by rw [hleast.length, List.length_map, size]
  distinct := hleast.nodup_map (by rw [List.map_map]; exact h.nodup)
  entry r hr := by
    obtain ⟨e, he, rfl⟩ := List.mem_map.mp (hleast.subset hr)
    exact ⟨e, he, rfl⟩
  closest e he hnot r hr :=
    hleast.not_lt hr (List.mem_map_of_mem he) fun hkept => hnot (List.mem_map.mpr ⟨_, hkept, rfl⟩)
  sorted := hsorted

/-! ### A sorted list as a queue -/

/-- A list that is kept nearest first. -/
def sortedHeap [Std.IsLinearPreorder F] [Std.LawfulOrderLT F] :
    PriorityQueue {l : List (SearchResult F) // HNSWIndex.NearestFirst l} fun r : SearchResult F => r.distance where
  empty := ⟨[], .nil⟩
  push r l := ⟨HNSWIndex.push r l, l.property.push⟩
  top l := l.val.getLast?
  pop l := ⟨l.val.dropLast, l.property.sublist (List.dropLast_sublist _)⟩
  toList := Subtype.val
  toList_empty := rfl
  toList_push r l := HNSWIndex.push_perm r l
  toList_of_top l := List.getLast?_eq_none_iff.mp
  toList_pop l r h := by
    have hlast := List.dropLast_append_getLast? r h
    exact (List.Perm.of_eq hlast.symm).trans (List.perm_append_singleton r l.val.dropLast)
  greatest l r h s hs := by
    have hlast := List.dropLast_append_getLast? r h
    have hsorted := l.property
    rw [HNSWIndex.NearestFirst, ← hlast, List.pairwise_append] at hsorted
    rw [← hlast] at hs
    rcases List.mem_append.mp hs with hs | hs
    · exact hsorted.2.2 s hs r List.mem_cons_self
    · rw [List.mem_singleton.mp hs]
      exact Std.lt_irrefl

/-- Sort by pushing one after the other. -/
def pushAll [Std.IsLinearPreorder F] [Std.LawfulOrderLT F] : Sorting fun r : SearchResult F => r.distance where
  sort l := l.foldr HNSWIndex.push []
  perm l := by
    induction l with
    | nil => exact .refl _
    | cons r l ih => exact (HNSWIndex.push_perm r _).trans (ih.cons r)
  sorted l := by
    induction l with
    | nil => exact .nil
    | cons r l ih => exact HNSWIndex.NearestFirst.push ih

variable [Std.IsLinearPreorder F] [Std.LawfulOrderLT F]

end Search

/-! ### Appending and removing -/

inductive Op (F : Type)
  | append (id : UInt64) (vector : List F)
  | remove (id : UInt64)

def step (t : ColdTierIndex F) : Op F → ColdTierIndex F
  | .append id vector => t.append id vector
  | .remove id => t.remove id

theorem Consistent.step {t : ColdTierIndex F} (h : t.Consistent) : ∀ op : Op F, (t.step op).Consistent
  | .append id vector => h.append id vector
  | .remove id => h.remove id

theorem consistent_run (dimension : ℕ) (dist : List F → List F → F) (ops : List (Op F)) :
    (Run.run step { dimension := dimension, computeDistance := dist } ops).Consistent := by
  have hnew : ({ dimension := dimension, computeDistance := dist } : ColdTierIndex F).Consistent :=
    consistent_nil _ rfl rfl
  exact Run.run_inv step (I := fun _ t => t.Consistent) (C := fun _ _ => True) (fun _ _ op h _ => h.step op) ops [] _
    hnew (Run.along_true _ _)

/-- **What a tier has, and what is found in it**, after anything was appended and removed.
The map has the place of every entry and nothing else, removing one id leaves the
vectors of the others, and a search finds nearest entries, if the metric compares the
query with each of them. If not it throws. -/
theorem nearest_run [Floats F] [Std.IsLinearPreorder F] [Std.LawfulOrderLT F] (metric : DistanceMetric)
    (heap : PriorityQueue S fun r : SearchResult F => r.distance)
    (order : Sorting fun r : SearchResult F => r.distance) (dimension : ℕ) (dist : List F → List F → F)
    (ops : List (Op F)) :
    let t := Run.run step { dimension := dimension, computeDistance := dist } ops
    t.Consistent ∧ (∀ id id', id' ≠ id → (t.remove id).getVector id' = t.getVector id') ∧
      ∀ (query : List F) (topK : ℕ), 1 ≤ topK →
        ((∀ e ∈ t.entries, metric.refuses query e.vector = none) →
          ∃ rs, t.searchChecked metric heap order query topK = .ok rs ∧ t.Nearest query topK rs) ∧
        ∀ what, (t.entries.findSome? fun e => metric.refuses query e.vector) = some what →
          t.searchChecked metric heap order query topK = .error (.thrown what) := by
  intro t
  have h : t.Consistent := consistent_run dimension dist ops
  refine ⟨h, fun id id' hne => ?_, fun query topK hk => ⟨fun hall => ?_, fun what hwhat => ?_⟩⟩
  · rw [h.getVector_remove, if_neg hne]
  · obtain ⟨rs, hrs, hleast, hsorted⟩ := searchChecked_eq heap order hk hall
    exact ⟨rs, hrs, h.nearest hleast hsorted⟩
  · exact searchChecked_refused heap order hk hwhat

/-- How far two points of a line are apart. -/
def gap (v w : List ℤ) : ℤ := |v.headD 0 - w.headD 0|

/-- Of three vectors the first is removed, and the others are equally far. -/
theorem nearest_twoLeft :
    let t := Run.run step { dimension := 1, computeDistance := gap }
      [.append 1 [6], .append 2 [5], .append 3 [7], .remove 1]
    t.Consistent ∧ (t.remove 2).getVector 3 = t.getVector 3 ∧
      ∃ rs, t.searchChecked .l2 sortedHeap pushAll [6] 1 = .ok rs ∧ t.Nearest [6] 1 rs := by
  intro t
  obtain ⟨hconsistent, hremove, hsearch⟩ := nearest_run .l2 sortedHeap pushAll 1 gap
    [.append 1 [6], .append 2 [5], .append 3 [7], .remove 1]
  exact ⟨hconsistent, hremove 2 3 (by decide), (hsearch [6] 1 (by decide)).1 (by decide)⟩

/-- A query that is longer than a vector throws. -/
theorem not_nearest_longer :
    let t := Run.run step { dimension := 1, computeDistance := gap } [.append 1 [5]]
    t.searchChecked .l2 sortedHeap pushAll [5, 6] 1 = .error (.thrown "l2DistanceSquared: dimension mismatch") ∧
      ¬ ∃ rs, t.searchChecked .l2 sortedHeap pushAll [5, 6] 1 = .ok rs ∧ t.Nearest [5, 6] 1 rs := by
  intro t
  have hthrown : t.searchChecked .l2 sortedHeap pushAll [5, 6] 1 =
      .error (.thrown "l2DistanceSquared: dimension mismatch") :=
    searchChecked_refused sortedHeap pushAll (by decide) rfl
  refine ⟨hthrown, ?_⟩
  rintro ⟨rs, hrs, -⟩
  rw [hthrown] at hrs
  cases hrs

end ColdTierIndex
end Vector
end Amind
