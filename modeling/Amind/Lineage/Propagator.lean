/-
# Invalidation along the lineage

When a memory is deleted, `LineagePropagator::propagate` marks it as removed
and judges its descendants breadth first: a node without a live parent is
invalidated and marked, and its children are queued; a node with one is
reported and left. Each node is judged once, when it is taken from the queue.

`propagate_reports` is what holds for every index: the search ends, reports no
node twice, calls the callback for the invalidated ones, marks these and no
others, and leaves each of them without a live parent.

What should be invalidated is the least set that `Closed` describes. A node
judged before one of its parents is invalidated keeps that parent as a live
one, so the search reaches the set only if the breadth-first order never puts a
member before its parents: `propagate_orphans_iff`.
-/
import Mathlib.Data.Set.Basic
import Mathlib.Order.Bounds.Basic
import Amind.Lib.Breadth
import Amind.Lineage.Reverse

namespace Amind
namespace Lineage

open Breadth

structure PropagationResult where
  memoryId : UInt64
  invalidated : Bool
  reason : String
  deriving DecidableEq, Repr

def orphanReason : String := "All upstream parents deleted/invalidated (lineage orphan)"

def liveReason : String := "Still has live parents"

/-! ### The search -/

/-- The search as it goes on: the index, the nodes met, those queued with their
depths, the results and the nodes the callback was called for. -/
structure Propagation where
  index : LineageIndex
  visited : List UInt64
  frontier : List (UInt64 × ℤ)
  results : List PropagationResult
  invalidateCalls : List UInt64

namespace Propagation

/-- A child that was not met is queued. -/
def push (depth : ℤ) (s : Propagation) (id : UInt64) : Propagation :=
  if id ∈ s.visited then s
  else { s with visited := id :: s.visited, frontier := s.frontier ++ [(id, depth)] }

/-- The node taken from the queue is judged. -/
def turn (maxDepth : ℤ) (s : Propagation) (currentId : UInt64) (depth : ℤ) : Propagation :=
  if s.index.hasLiveParents currentId = true then
    { s with results := s.results ++ [⟨currentId, false, liveReason⟩] }
  else
    let s := { s with index := s.index.mark currentId, invalidateCalls := s.invalidateCalls ++ [currentId] }
    let s := if depth < maxDepth then (s.index.getChildren currentId).foldl (push (depth + 1)) s else s
    { s with results := s.results ++ [⟨currentId, true, orphanReason⟩] }

/-- The loop, `none` if the fuel is used up before the queue. -/
def loop (maxDepth : ℤ) : ℕ → Propagation → Option Propagation
  | 0, _ => none
  | n + 1, s =>
    match s.frontier with
    | [] => some s
    | (currentId, depth) :: rest => loop maxDepth n (turn maxDepth { s with frontier := rest } currentId depth)

/-- The parent is marked and its children are queued. -/
def seed (x : LineageIndex) (deletedParentId : UInt64) : Propagation :=
  ((x.mark deletedParentId).getChildren deletedParentId).foldl (push 1) ⟨x.mark deletedParentId, [], [], [], []⟩

end Propagation

/-- The children the index lists, one after the other. -/
def LineageIndex.listed (x : LineageIndex) : List UInt64 := x.parentToChildren.entries.flatMap fun e => e.2

/-- `propagate`, with a turn of the loop for every child listed. -/
def propagate (maxDepth : ℤ) (x : LineageIndex) (deletedParentId : UInt64) : Option Propagation :=
  Propagation.loop maxDepth (x.listed.length + 1) (Propagation.seed x deletedParentId)

/-! ### One turn -/

namespace LineageIndex

variable {x : LineageIndex}

@[simp] theorem getChildren_mark (id p : UInt64) : (x.mark id).getChildren p = x.getChildren p := rfl

theorem mem_removedNodes_mark {id n : UInt64} : n ∈ (x.mark id).removedNodes ↔ n = id ∨ n ∈ x.removedNodes :=
  List.mem_insert_iff

theorem hasLiveParents_eq_false {c : UInt64} :
    x.hasLiveParents c = false ↔ ∀ q ∈ x.getParents c, q ∈ x.removedNodes := by
  unfold hasLiveParents getParents
  cases x.childToRecord.lookup c with
  | none => simp
  | some r => simp

theorem mem_listed {p c : UInt64} (h : c ∈ x.getChildren p) : c ∈ x.listed := by
  unfold getChildren at h
  cases hl : x.parentToChildren.lookup p with
  | none =>
    rw [hl] at h
    exact absurd h List.not_mem_nil
  | some cs =>
    rw [hl] at h
    exact List.mem_flatMap.mpr ⟨⟨p, cs⟩, AList.mem_lookup_iff.mp hl, h⟩

end LineageIndex

namespace Propagation

/-- The nodes judged so far, in order. -/
def judged (s : Propagation) : List UInt64 := s.results.map PropagationResult.memoryId

/-- The nodes still to be judged, in order. -/
def queued (s : Propagation) : List UInt64 := s.frontier.map Prod.fst

theorem map_fst_depth (depth : ℤ) (ns : List UInt64) : (ns.map fun n => (n, depth)).map Prod.fst = ns := by
  rw [List.map_map]
  exact List.map_id ns

theorem foldl_push (depth : ℤ) : ∀ (ns : List UInt64) (s : Propagation),
    ∃ visited, (∀ n, n ∈ visited ↔ n ∈ s.visited ∨ n ∈ fresh s.visited ns) ∧
      ns.foldl (push depth) s =
        { s with visited := visited, frontier := s.frontier ++ (fresh s.visited ns).map fun n => (n, depth) }
  | [], s => ⟨s.visited, by simp [fresh], by simp [fresh]⟩
  | n :: ns, s => by
    by_cases hn : n ∈ s.visited
    · have hpush : push depth s n = s := if_pos hn
      obtain ⟨visited, hv, hfold⟩ := foldl_push depth ns s
      have hfresh : fresh s.visited (n :: ns) = fresh s.visited ns := if_pos hn
      rw [List.foldl_cons, hpush, hfresh]
      exact ⟨visited, hv, hfold⟩
    · have hpush : push depth s n = { s with visited := n :: s.visited, frontier := s.frontier ++ [(n, depth)] } :=
        if_neg hn
      obtain ⟨visited, hv, hfold⟩ := foldl_push depth ns (push depth s n)
      have hfresh : fresh s.visited (n :: ns) = n :: fresh (n :: s.visited) ns := if_neg hn
      rw [List.foldl_cons, hfresh]
      refine ⟨visited, fun m => ?_, ?_⟩
      · rw [hv m, hpush]
        simp only [List.mem_cons]
        tauto
      · rw [hfold, hpush]
        simp

/-- What a node of the queue that is taken for dead queues. -/
def opened (maxDepth : ℤ) (s : Propagation) (id : UInt64) (depth : ℤ) : List UInt64 :=
  if depth < maxDepth then fresh s.visited (s.index.getChildren id) else []

/-- A node with a live parent is reported. -/
theorem turn_live (maxDepth : ℤ) (s : Propagation) {id : UInt64} (depth : ℤ) (h : s.index.hasLiveParents id = true) :
    turn maxDepth s id depth = { s with results := s.results ++ [⟨id, false, liveReason⟩] } := if_pos h

/-- A node without one is marked, and its children are queued. -/
theorem turn_dead (maxDepth : ℤ) (s : Propagation) {id : UInt64} (depth : ℤ) (h : s.index.hasLiveParents id = false) :
    ∃ visited, (∀ n, n ∈ visited ↔ n ∈ s.visited ∨ n ∈ s.opened maxDepth id depth) ∧
      turn maxDepth s id depth =
        { index := s.index.mark id
          visited := visited
          frontier := s.frontier ++ (s.opened maxDepth id depth).map fun n => (n, depth + 1)
          results := s.results ++ [⟨id, true, orphanReason⟩]
          invalidateCalls := s.invalidateCalls ++ [id] } := by
  have hne : ¬ s.index.hasLiveParents id = true := by rw [h]; decide
  unfold opened
  by_cases hd : depth < maxDepth
  · rw [if_pos hd]
    obtain ⟨visited, hv, hfold⟩ := foldl_push (depth + 1) (s.index.getChildren id)
      { s with index := s.index.mark id, invalidateCalls := s.invalidateCalls ++ [id] }
    refine ⟨visited, hv, ?_⟩
    unfold turn
    rw [if_neg hne]
    dsimp only
    rw [if_pos hd, LineageIndex.getChildren_mark, hfold]
  · rw [if_neg hd]
    refine ⟨s.visited, by simp, ?_⟩
    unfold turn
    rw [if_neg hne]
    dsimp only
    rw [if_neg hd]
    simp

/-! ### What every turn keeps -/

/-- What holds throughout the search for the children of `p` in the index `x`. -/
structure Inv (x : LineageIndex) (p : UInt64) (s : Propagation) : Prop where
  records : s.index.childToRecord = x.childToRecord
  children : s.index.parentToChildren = x.parentToChildren
  visited : ∀ n, n ∈ s.visited ↔ n ∈ s.judged ++ s.queued
  nodup : (s.judged ++ s.queued).Nodup
  calls : s.invalidateCalls = (s.results.filter (·.invalidated)).map PropagationResult.memoryId
  removed : ∀ n, n ∈ s.index.removedNodes ↔ n ∈ x.removedNodes ∨ n = p ∨ n ∈ s.invalidateCalls
  orphaned : ∀ n ∈ s.invalidateCalls, ∀ q ∈ x.getParents n, q ∈ s.index.removedNodes
  origin : ∀ n ∈ s.judged ++ s.queued, ∃ m, (m = p ∨ m ∈ s.invalidateCalls) ∧ n ∈ x.getChildren m

variable {x : LineageIndex} {p : UInt64} {s : Propagation}

theorem Inv.getChildren (h : s.Inv x p) (m : UInt64) : s.index.getChildren m = x.getChildren m := by
  unfold LineageIndex.getChildren
  rw [h.children]

theorem Inv.getParents (h : s.Inv x p) (c : UInt64) : s.index.getParents c = x.getParents c := by
  unfold LineageIndex.getParents
  rw [h.records]

/-- The queue with its first node taken off, before that is judged. -/
theorem Inv.opened (h : s.Inv x p) {maxDepth : ℤ} {id : UInt64} {depth : ℤ} (rest : List (UInt64 × ℤ)) :
    ({ s with frontier := rest } : Propagation).opened maxDepth id depth =
      if depth < maxDepth then fresh (s.judged ++ s.queued) (x.getChildren id) else [] := by
  unfold Propagation.opened
  rw [show ({ s with frontier := rest } : Propagation).index.getChildren id = _ from h.getChildren id,
    fresh_congr _ h.visited]

theorem inv_seed (x : LineageIndex) (p : UInt64) : (seed x p).Inv x p ∧ (seed x p).judged = [] ∧
    (seed x p).queued = fresh [] (x.getChildren p) := by
  obtain ⟨visited, hv, hfold⟩ := foldl_push 1 (x.getChildren p) ⟨x.mark p, [], [], [], []⟩
  have hseed : seed x p = ⟨x.mark p, visited, [] ++ (fresh [] (x.getChildren p)).map fun n => (n, 1), [], []⟩ := hfold
  have hqueued : (seed x p).queued = fresh [] (x.getChildren p) := by
    rw [hseed, queued, List.nil_append, map_fst_depth]
  have hjudged : (seed x p).judged = [] := by rw [hseed]; rfl
  refine ⟨?_, hjudged, hqueued⟩
  refine
    { records := by rw [hseed]; rfl
      children := by rw [hseed]; rfl
      visited := fun n => ?_
      nodup := by rw [hjudged, hqueued, List.nil_append]; exact nodup_fresh _ _
      calls := by rw [hseed]; rfl
      removed := fun n => ?_
      orphaned := fun n hn => ?_
      origin := fun n hn => ?_ }
  · rw [hjudged, hqueued, List.nil_append, hseed]
    exact (hv n).trans (or_iff_right List.not_mem_nil)
  · rw [hseed]
    show n ∈ (x.mark p).removedNodes ↔ _
    rw [LineageIndex.mem_removedNodes_mark]
    simp only [List.not_mem_nil, or_false]
    exact or_comm
  · rw [hseed] at hn
    exact absurd hn List.not_mem_nil
  · rw [hjudged, hqueued, List.nil_append] at hn
    exact ⟨p, .inl rfl, (mem_fresh.mp hn).1⟩

/-- A node with a live parent is judged: it leaves the queue. -/
theorem Inv.spare (h : s.Inv x p) {id : UInt64} {depth : ℤ} {rest : List (UInt64 × ℤ)}
    (hf : s.frontier = (id, depth) :: rest) :
    ({ s with frontier := rest, results := s.results ++ [⟨id, false, liveReason⟩] } : Propagation).Inv x p := by
  have hqueued : s.queued = id :: rest.map Prod.fst := by rw [queued, hf]; rfl
  let s' : Propagation := { s with frontier := rest, results := s.results ++ [⟨id, false, liveReason⟩] }
  have hall : s'.judged ++ s'.queued = s.judged ++ s.queued := by
    rw [hqueued, judged, List.map_append, List.append_assoc]
    rfl
  exact
    { records := h.records
      children := h.children
      visited := fun n => by rw [hall]; exact h.visited n
      nodup := by rw [hall]; exact h.nodup
      calls := by simp [h.calls]
      removed := h.removed
      orphaned := h.orphaned
      origin := by rw [hall]; exact h.origin }

/-- A node without one is judged: it is marked, and children that are new are queued. -/
theorem Inv.orphan (h : s.Inv x p) {id : UInt64} {depth : ℤ} {rest : List (UInt64 × ℤ)}
    (hf : s.frontier = (id, depth) :: rest) (hdead : ∀ q ∈ x.getParents id, q ∈ s.index.removedNodes)
    {kids visited : List UInt64} (hkid : ∀ n ∈ kids, n ∈ x.getChildren id ∧ n ∉ s.judged ++ s.queued)
    (hnodup : kids.Nodup) (hv : ∀ n, n ∈ visited ↔ n ∈ s.visited ∨ n ∈ kids) :
    ({ index := s.index.mark id
       visited := visited
       frontier := rest ++ kids.map fun n => (n, depth + 1)
       results := s.results ++ [⟨id, true, orphanReason⟩]
       invalidateCalls := s.invalidateCalls ++ [id] } : Propagation).Inv x p := by
  have hqueued : s.queued = id :: rest.map Prod.fst := by rw [queued, hf]; rfl
  let s' : Propagation :=
    { index := s.index.mark id
      visited := visited
      frontier := rest ++ kids.map fun n => (n, depth + 1)
      results := s.results ++ [⟨id, true, orphanReason⟩]
      invalidateCalls := s.invalidateCalls ++ [id] }
  have hall : s'.judged ++ s'.queued = s.judged ++ s.queued ++ kids := by
    rw [hqueued, judged, queued, List.map_append, List.map_append, map_fst_depth, judged]
    simp only [List.map_cons, List.map_nil, List.append_assoc, List.cons_append, List.nil_append]
  refine
    { records := h.records
      children := h.children
      visited := fun n => ?_
      nodup := ?_
      calls := by simp [h.calls]
      removed := fun n => ?_
      orphaned := fun n hn q hq => ?_
      origin := fun n hn => ?_ }
  · rw [hall, List.mem_append, ← h.visited n]
    exact hv n
  · rw [hall]
    exact List.nodup_append.mpr ⟨h.nodup, hnodup, fun a ha b hb hab => (hkid b hb).2 (hab ▸ ha)⟩
  · rw [LineageIndex.mem_removedNodes_mark, h.removed, List.mem_append, List.mem_singleton]
    tauto
  · rw [LineageIndex.mem_removedNodes_mark]
    rcases List.mem_append.mp hn with hn | hn
    · exact .inr (h.orphaned n hn q hq)
    · rw [List.mem_singleton.mp hn] at hq
      exact .inr (hdead q hq)
  · rw [hall] at hn
    rcases List.mem_append.mp hn with hn | hn
    · obtain ⟨m, hm, hc⟩ := h.origin n hn
      exact ⟨m, hm.imp_right (List.mem_append_left _), hc⟩
    · exact ⟨id, .inr (List.mem_append_right _ (List.mem_singleton_self _)), (hkid n hn).1⟩

/-- The node is judged next: what becomes of it, of the queue and of the
calls. -/
theorem Inv.turn (h : s.Inv x p) {id : UInt64} {depth : ℤ} {rest : List (UInt64 × ℤ)}
    (hf : s.frontier = (id, depth) :: rest) (maxDepth : ℤ) :
    let s' := Propagation.turn maxDepth { s with frontier := rest } id depth
    s'.Inv x p ∧ s'.judged = s.judged ++ [id] ∧ s.results <+: s'.results ∧
      ((∃ q ∈ x.getParents id, q ∉ s.index.removedNodes) ∧ s'.frontier = rest ∧
          s'.invalidateCalls = s.invalidateCalls ∨
        (∀ q ∈ x.getParents id, q ∈ s.index.removedNodes) ∧
          s'.frontier = rest ++ (if depth < maxDepth then fresh (s.judged ++ s.queued) (x.getChildren id)
            else []).map (fun n => (n, depth + 1)) ∧
          s'.invalidateCalls = s.invalidateCalls ++ [id]) := by
  intro s'
  cases hlive : s.index.hasLiveParents id with
  | true =>
    have hs' : s' = { s with frontier := rest, results := s.results ++ [⟨id, false, liveReason⟩] } :=
      turn_live maxDepth { s with frontier := rest } depth hlive
    have hex : ∃ q ∈ x.getParents id, q ∉ s.index.removedNodes := by
      by_contra hno
      have hdead : s.index.hasLiveParents id = false := by
        rw [LineageIndex.hasLiveParents_eq_false, h.getParents]
        intro q hq
        by_contra hq'
        exact hno ⟨q, hq, hq'⟩
      rw [hlive] at hdead
      cases hdead
    rw [hs']
    refine ⟨h.spare hf, ?_, List.prefix_append _ _, .inl ⟨hex, rfl, rfl⟩⟩
    rw [judged, List.map_append]
    rfl
  | false =>
    obtain ⟨visited, hv, hs'⟩ := turn_dead maxDepth { s with frontier := rest } depth hlive
    change s' = _ at hs'
    rw [h.opened] at hv hs'
    have hdead : ∀ q ∈ x.getParents id, q ∈ s.index.removedNodes := by
      have hnone := LineageIndex.hasLiveParents_eq_false.mp hlive
      rwa [h.getParents] at hnone
    have hkid : ∀ n ∈ if depth < maxDepth then fresh (s.judged ++ s.queued) (x.getChildren id) else [],
        n ∈ x.getChildren id ∧ n ∉ s.judged ++ s.queued := by
      intro n hn
      split at hn
      · exact mem_fresh.mp hn
      · exact absurd hn List.not_mem_nil
    have hnodup : (if depth < maxDepth then fresh (s.judged ++ s.queued) (x.getChildren id) else []).Nodup := by
      split
      · exact nodup_fresh _ _
      · exact List.nodup_nil
    rw [hs']
    refine ⟨h.orphan hf hdead hkid hnodup hv, ?_, List.prefix_append _ _, .inr ⟨hdead, rfl, rfl⟩⟩
    rw [judged, List.map_append]
    rfl

/-- The nodes met are children that the index lists. -/
theorem Inv.length_le (h : s.Inv x p) : (s.judged ++ s.queued).length ≤ x.listed.length := by
  refine (h.nodup.subperm fun n hn => ?_).length_le
  obtain ⟨m, -, hm⟩ := h.origin n hn
  exact LineageIndex.mem_listed hm

/-- The search ends. -/
theorem Inv.loop (h : s.Inv x p) (maxDepth : ℤ) : ∀ n : ℕ, x.listed.length < n + s.judged.length →
    ∃ s', Propagation.loop maxDepth n s = some s' ∧ s'.Inv x p ∧ s'.frontier = [] := by
  intro n
  induction n generalizing s with
  | zero =>
    intro hn
    have hle := h.length_le
    rw [List.length_append] at hle
    omega
  | succ n ih =>
    intro hn
    unfold Propagation.loop
    cases hf : s.frontier with
    | nil => exact ⟨s, rfl, h, hf⟩
    | cons head rest =>
      obtain ⟨id, depth⟩ := head
      obtain ⟨hinv, hjudged, -⟩ := h.turn hf maxDepth
      refine ih hinv ?_
      rw [hjudged, List.length_append, List.length_singleton]
      omega

end Propagation

theorem propagate_inv (maxDepth : ℤ) (x : LineageIndex) (p : UInt64) :
    ∃ s, propagate maxDepth x p = some s ∧ s.Inv x p ∧ s.frontier = [] ∧ s.judged.Nodup := by
  obtain ⟨hseed, hjudged, -⟩ := Propagation.inv_seed x p
  obtain ⟨s, hs, h, hend⟩ := hseed.loop maxDepth (x.listed.length + 1) (by rw [hjudged]; exact Nat.lt_succ_self _)
  exact ⟨s, hs, h, hend, (List.nodup_append.mp h.nodup).1⟩

/-- **What `propagate` does for every index**, cyclic or not, and every depth
limit: the search ends, reports no node twice and calls the callback once for
each node reported as invalidated; the removed nodes are those from before, the
deleted parent and the invalidated nodes, nothing else in the index is changed,
and no invalidated node is left with a live parent. -/
theorem propagate_reports (maxDepth : ℤ) (x : LineageIndex) (p : UInt64) :
    ∃ s, propagate maxDepth x p = some s ∧
      (s.results.map PropagationResult.memoryId).Nodup ∧
      s.invalidateCalls = (s.results.filter (·.invalidated)).map PropagationResult.memoryId ∧
      s.invalidateCalls.Nodup ∧
      (∀ n, n ∈ s.index.removedNodes ↔ n ∈ x.removedNodes ∨ n = p ∨ n ∈ s.invalidateCalls) ∧
      s.index.childToRecord = x.childToRecord ∧ s.index.parentToChildren = x.parentToChildren ∧
      ∀ n ∈ s.invalidateCalls, ∀ q ∈ s.index.getParents n, q ∈ s.index.removedNodes := by
  obtain ⟨s, hs, h, -, hnodup⟩ := propagate_inv maxDepth x p
  refine ⟨s, hs, hnodup, h.calls, ?_, h.removed, h.records, h.children, fun n hn q hq => ?_⟩
  · rw [h.calls]
    exact (List.filter_sublist.map _).nodup hnodup
  · rw [h.getParents] at hq
    exact h.orphaned n hn q hq

/-! ### What should be invalidated -/

section Orphans

variable (x : LineageIndex) (p : UInt64)

/-- `n` is a child in so many steps down from `p`. -/
inductive Descent : ℕ → UInt64 → Prop
  | child {n : UInt64} (h : n ∈ x.getChildren p) : Descent 1 n
  | step {k : ℕ} {m n : UInt64} (hm : Descent k m) (h : n ∈ x.getChildren m) : Descent (k + 1) n

/-- No path down from `p` is longer than the depth limit, so there is no cycle
below `p`. -/
def Bounded (maxDepth : ℤ) : Prop := ∀ k n, Descent x p k n → (k : ℤ) ≤ maxDepth

def Descendants : Set UInt64 := {n | ∃ k, Descent x p k n}

/-- A child of `p` or of a member all of whose recorded parents are removed, or
`p`, or members, is a member. -/
def Closed (T : Set UInt64) : Prop :=
  ∀ n m, n ∈ x.getChildren m → (m = p ∨ m ∈ T) →
    (∀ q ∈ x.getParents n, q ∈ x.removedNodes ∨ q = p ∨ q ∈ T) → n ∈ T

/-- The nodes in every closed set. -/
def Orphans : Set UInt64 := {n | ∀ T, Closed x p T → n ∈ T}

/-- These are the least set of descendants that is closed. -/
def ExactlyOrphans (ids : List UInt64) : Prop := IsLeast {T | T ⊆ Descendants x p ∧ Closed x p T} {n | n ∈ ids}

/-- In the breadth-first order that expands `p` and the orphans each orphan
comes after those of its recorded parents that are orphans and not removed
yet. -/
def ParentsFirst : Prop :=
  ∃ B, Enumerates x.getChildren (· ∈ Orphans x p) [] (fresh [] (x.getChildren p)) B ∧
    ∀ n ∈ Orphans x p, ∀ q ∈ x.getParents n, q ∈ Orphans x p → q ∉ (x.mark p).removedNodes → Before B q n

theorem closed_orphans : Closed x p (Orphans x p) := by
  intro n m hn hm hq T hT
  refine hT n m hn (hm.imp_right fun h => h T hT) fun q hq' => ?_
  rcases hq q hq' with h | h | h
  · exact .inl h
  · exact .inr (.inl h)
  · exact .inr (.inr (h T hT))

/-- Every orphan is one for the reason `Closed` gives. -/
theorem orphans_reason {n : UInt64} (hn : n ∈ Orphans x p) :
    (∃ m, n ∈ x.getChildren m ∧ (m = p ∨ m ∈ Orphans x p)) ∧
      ∀ q ∈ x.getParents n, q ∈ x.removedNodes ∨ q = p ∨ q ∈ Orphans x p := by
  refine hn {n | (∃ m, n ∈ x.getChildren m ∧ (m = p ∨ m ∈ Orphans x p)) ∧
    ∀ q ∈ x.getParents n, q ∈ x.removedNodes ∨ q = p ∨ q ∈ Orphans x p} ?_
  have hsub : ∀ n, ((∃ m, n ∈ x.getChildren m ∧ (m = p ∨ m ∈ Orphans x p)) ∧
      ∀ q ∈ x.getParents n, q ∈ x.removedNodes ∨ q = p ∨ q ∈ Orphans x p) → n ∈ Orphans x p := by
    rintro n ⟨⟨m, hc, hm⟩, hq⟩
    exact closed_orphans x p n m hc hm hq
  intro n m hc hm hq
  exact ⟨⟨m, hc, hm.imp_right (hsub m)⟩, fun q hq' => (hq q hq').imp_right fun h => h.imp_right (hsub q)⟩

theorem closed_descendants : Closed x p (Descendants x p) := by
  rintro n m hn (rfl | ⟨k, hk⟩) -
  · exact ⟨1, .child hn⟩
  · exact ⟨k + 1, .step hk hn⟩

end Orphans

namespace Propagation

variable {x : LineageIndex} {p : UInt64} {s : Propagation}

/-- Only orphans are invalidated. -/
theorem Inv.sound (h : s.Inv x p) (hc : ∀ n ∈ s.invalidateCalls, n ∈ Orphans x p) {id : UInt64}
    (hid : id ∈ s.queued) (hq : ∀ q ∈ x.getParents id, q ∈ s.index.removedNodes) : id ∈ Orphans x p := by
  obtain ⟨m, hm, hchild⟩ := h.origin id (List.mem_append_right _ hid)
  refine closed_orphans x p id m hchild (hm.imp_right (hc m)) fun q hq' => ?_
  rcases (h.removed q).mp (hq q hq') with h | h | h
  · exact .inl h
  · exact .inr (.inl h)
  · exact .inr (.inr (hc q h))

/-- With the paths bounded the depth limit cuts nothing off: the invalidated
nodes are orphans, and their children are met. -/
structure Deep (x : LineageIndex) (p : UInt64) (s : Propagation) : Prop extends s.Inv x p where
  sound : ∀ n ∈ s.invalidateCalls, n ∈ Orphans x p
  met : ∀ m, (m = p ∨ m ∈ s.invalidateCalls) → ∀ n ∈ x.getChildren m, n ∈ s.judged ++ s.queued
  depth : ∀ e ∈ s.frontier, ∃ k : ℕ, e.2 = k ∧ Descent x p k e.1

theorem frontier_seed (x : LineageIndex) (p : UInt64) :
    (seed x p).frontier = (fresh [] (x.getChildren p)).map (fun n => (n, 1)) ∧ (seed x p).invalidateCalls = [] := by
  obtain ⟨visited, -, hfold⟩ := foldl_push 1 (x.getChildren p) ⟨x.mark p, [], [], [], []⟩
  have hseed : seed x p = ⟨x.mark p, visited, [] ++ (fresh [] (x.getChildren p)).map fun n => (n, 1), [], []⟩ := hfold
  rw [hseed]
  exact ⟨rfl, rfl⟩

theorem deep_seed (x : LineageIndex) (p : UInt64) : (seed x p).Deep x p := by
  obtain ⟨hinv, hjudged, hqueued⟩ := inv_seed x p
  obtain ⟨hfrontier, hcalls⟩ := frontier_seed x p
  refine { toInv := hinv, sound := fun n hn => ?_, met := fun m hm n hn => ?_, depth := fun e he => ?_ }
  · rw [hcalls] at hn
    exact absurd hn List.not_mem_nil
  · rw [hcalls, or_iff_left List.not_mem_nil] at hm
    subst hm
    rw [hjudged, hqueued, List.nil_append]
    exact mem_fresh.mpr ⟨hn, List.not_mem_nil⟩
  · rw [hfrontier] at he
    obtain ⟨n, hn, rfl⟩ := List.mem_map.mp he
    exact ⟨1, rfl, .child (mem_fresh.mp hn).1⟩

/-- A node at the depth limit has no children. -/
theorem Deep.kids (h : s.Deep x p) {maxDepth : ℤ} (hb : Bounded x p maxDepth) {id : UInt64} {depth : ℤ}
    (hid : (id, depth) ∈ s.frontier) (seen : List UInt64) :
    (if depth < maxDepth then fresh seen (x.getChildren id) else []) = fresh seen (x.getChildren id) := by
  split
  · rfl
  · rename_i hlimit
    obtain ⟨k, hk, hdescent⟩ := h.depth _ hid
    cases hc : x.getChildren id with
    | nil => rfl
    | cons n ns =>
      have hle := hb _ _ (.step hdescent (hc ▸ List.mem_cons_self))
      rw [Nat.cast_add, Nat.cast_one] at hle
      dsimp only at hk
      omega

theorem Deep.turn (h : s.Deep x p) {maxDepth : ℤ} (hb : Bounded x p maxDepth) {id : UInt64} {depth : ℤ}
    {rest : List (UInt64 × ℤ)} (hf : s.frontier = (id, depth) :: rest) :
    (Propagation.turn maxDepth { s with frontier := rest } id depth).Deep x p := by
  obtain ⟨hinv, hjudged, -, hcases⟩ := h.toInv.turn hf maxDepth
  have hqueued : s.queued = id :: rest.map Prod.fst := by rw [queued, hf]; rfl
  have hid : id ∈ s.queued := hqueued ▸ List.mem_cons_self
  obtain ⟨k, hk, hdescent⟩ := h.depth (id, depth) (hf ▸ List.mem_cons_self)
  rw [h.kids hb (hf ▸ List.mem_cons_self)] at hcases
  have hkeep : ∀ n, n ∈ s.judged ++ s.queued → n ∈ s.judged ++ [id] ++ rest.map Prod.fst := fun n hn => by
    rwa [hqueued, ← List.singleton_append, ← List.append_assoc] at hn
  rcases hcases with ⟨-, hfrontier, hcalls⟩ | ⟨hdead, hfrontier, hcalls⟩
  · refine { toInv := hinv, sound := ?_, met := fun m hm n hn => ?_, depth := fun e he => ?_ }
    · rw [hcalls]
      exact h.sound
    · rw [hcalls] at hm
      rw [hjudged, queued, hfrontier]
      exact hkeep n (h.met m hm n hn)
    · rw [hfrontier] at he
      exact h.depth e (hf ▸ List.mem_cons_of_mem _ he)
  · refine { toInv := hinv, sound := fun n hn => ?_, met := fun m hm n hn => ?_, depth := fun e he => ?_ }
    · rw [hcalls] at hn
      rcases List.mem_append.mp hn with hn | hn
      · exact h.sound n hn
      · rw [List.mem_singleton.mp hn]
        exact h.toInv.sound h.sound hid hdead
    · rw [hjudged, queued, hfrontier, List.map_append, map_fst_depth, ← List.append_assoc]
      rw [hcalls, List.mem_append, List.mem_singleton, ← or_assoc] at hm
      by_cases hseen : n ∈ s.judged ++ s.queued
      · exact List.mem_append_left _ (hkeep n hseen)
      · rcases hm with hm | rfl
        · exact absurd (h.met m hm n hn) hseen
        · exact List.mem_append_right _ (mem_fresh.mpr ⟨hn, hseen⟩)
    · rw [hfrontier] at he
      rcases List.mem_append.mp he with he | he
      · exact h.depth e (hf ▸ List.mem_cons_of_mem _ he)
      · obtain ⟨n, hn, rfl⟩ := List.mem_map.mp he
        refine ⟨k + 1, ?_, .step hdescent (mem_fresh.mp hn).1⟩
        rw [Nat.cast_add, Nat.cast_one, ← hk]

/-- The results only grow. -/
theorem loop_results {maxDepth : ℤ} : ∀ (n : ℕ) {s s' : Propagation}, s.Inv x p → loop maxDepth n s = some s' →
    s.results <+: s'.results ∧ s'.Inv x p
  | 0, _, _, _, h => by cases h
  | n + 1, s, s', hinv, h => by
    unfold loop at h
    cases hf : s.frontier with
    | nil =>
      rw [hf] at h
      obtain rfl := Option.some.inj h
      exact ⟨List.prefix_refl _, hinv⟩
    | cons head rest =>
      obtain ⟨id, depth⟩ := head
      rw [hf] at h
      obtain ⟨hinv', -, hpre, -⟩ := hinv.turn hf maxDepth
      obtain ⟨hpre', hend⟩ := loop_results n hinv' h
      exact ⟨hpre.trans hpre', hend⟩

theorem Inv.mem_judged (h : s.Inv x p) {n : UInt64} (hn : n ∈ s.invalidateCalls) : n ∈ s.judged := by
  rw [h.calls] at hn
  exact (List.filter_sublist.map _).subset hn

/-- A judgement is final. -/
theorem Inv.calls_final {s' : Propagation} (h : s.Inv x p) (h' : s'.Inv x p) (hpre : s.results <+: s'.results)
    {n : UInt64} (hn : n ∈ s.judged) : n ∈ s'.invalidateCalls ↔ n ∈ s.invalidateCalls := by
  obtain ⟨more, hmore⟩ := hpre
  have hnodup : (s.judged ++ more.map PropagationResult.memoryId).Nodup := by
    have hj := (List.nodup_append.mp h'.nodup).1
    rwa [judged, ← hmore, List.map_append] at hj
  rw [h'.calls, h.calls, ← hmore, List.filter_append, List.map_append, List.mem_append]
  refine or_iff_left fun hn' => ?_
  have hin : n ∈ more.map PropagationResult.memoryId := (List.filter_sublist.map _).subset hn'
  exact (List.nodup_append.mp hnodup).2.2 n hn n hin rfl

/-- If exactly the orphans are invalidated in the end, the search takes the
nodes in the order that expands the orphans, and each orphan after its parents
among them. -/
theorem Deep.enumerates {maxDepth : ℤ} (hb : Bounded x p maxDepth) : ∀ (n : ℕ) {s s' : Propagation}, s.Deep x p →
    loop maxDepth n s = some s' → (∀ n, n ∈ Orphans x p ↔ n ∈ s'.invalidateCalls) →
    Enumerates x.getChildren (· ∈ Orphans x p) s.judged s.queued s'.judged ∧
      ∀ n ∈ Orphans x p, n ∉ s.judged → ∀ q ∈ x.getParents n, q ∈ Orphans x p → q ∉ (x.mark p).removedNodes →
        Before s'.judged q n
  | 0, _, _, _, h, _ => by cases h
  | n + 1, s, s', hdeep, h, hall => by
    unfold loop at h
    cases hf : s.frontier with
    | nil =>
      rw [hf] at h
      obtain rfl := Option.some.inj h
      have hqueued : s.queued = [] := by rw [queued, hf]; rfl
      rw [hqueued]
      exact ⟨.nil, fun m hm hnot => absurd (hdeep.toInv.mem_judged ((hall m).mp hm)) hnot⟩
    | cons head rest =>
      obtain ⟨id, depth⟩ := head
      rw [hf] at h
      obtain ⟨hinv, hjudged, hpre, hcases⟩ := hdeep.toInv.turn hf maxDepth
      obtain ⟨hpre', hinv'⟩ := loop_results n hinv h
      obtain ⟨henum, hbefore⟩ := Deep.enumerates hb n (hdeep.turn hb hf) h hall
      have hfinal := hinv.calls_final hinv' hpre' (hjudged ▸ List.mem_append_right _ (List.mem_singleton_self id))
      have hqueued : s.queued = id :: rest.map Prod.fst := by rw [queued, hf]; rfl
      have hid : id ∉ s.judged := fun hin =>
        (List.nodup_append.mp hdeep.nodup).2.2 id hin id (hqueued ▸ List.mem_cons_self) rfl
      rw [hdeep.kids hb (hf ▸ List.mem_cons_self)] at hcases
      rw [hjudged] at henum hbefore
      have hlater : ∀ m, m ≠ id → m ∉ s.judged → m ∉ s.judged ++ [id] := fun m hne hnot hin =>
        (List.mem_append.mp hin).elim hnot fun h => hne (List.mem_singleton.mp h)
      rcases hcases with ⟨-, hfrontier, hcalls⟩ | ⟨hdead, hfrontier, hcalls⟩
      · have hnot : id ∉ Orphans x p := by
          rw [hall, hfinal, hcalls]
          exact fun hin => hid (hdeep.toInv.mem_judged hin)
        rw [queued, hfrontier] at henum
        rw [hqueued]
        refine ⟨.skip hnot henum, fun m hm hm' => hbefore m hm (hlater m ?_ hm')⟩
        rintro rfl
        exact hnot hm
      · have horphan : id ∈ Orphans x p := by
          rw [hall, hfinal, hcalls]
          exact List.mem_append_right _ (List.mem_singleton_self id)
        rw [queued, hfrontier, List.map_append, map_fst_depth, hqueued] at henum
        rw [hqueued]
        refine ⟨.expand horphan henum, fun m hm hm' q hq hqo hqr => ?_⟩
        by_cases hmid : m = id
        · subst hmid
          rw [LineageIndex.mem_removedNodes_mark, not_or] at hqr
          have hqcalls : q ∈ s.invalidateCalls := by
            rcases (hdeep.removed q).mp (hdead q hq) with h | h | h
            · exact absurd h hqr.2
            · exact absurd h hqr.1
            · exact h
          have hstarts := henum.starts
          rw [List.append_assoc, List.singleton_append] at hstarts
          exact before_of_starts hstarts (hdeep.toInv.mem_judged hqcalls)
        · exact hbefore m hm (hlater m hmid hm') q hq hqo hqr

/-- If the order that expands the orphans takes each of them after its parents
among them, every orphan that is met is invalidated. -/
theorem Deep.complete {maxDepth : ℤ} (hb : Bounded x p maxDepth) {B : List UInt64} (hn : B.Nodup)
    (hbefore : ∀ n ∈ Orphans x p, ∀ q ∈ x.getParents n, q ∈ Orphans x p → q ∉ (x.mark p).removedNodes → Before B q n) :
    ∀ (n : ℕ) {s s' : Propagation}, s.Deep x p → Enumerates x.getChildren (· ∈ Orphans x p) s.judged s.queued B →
      (∀ n ∈ s.judged, n ∈ Orphans x p → n ∈ s.invalidateCalls) → loop maxDepth n s = some s' →
      ∀ n ∈ s'.judged, n ∈ Orphans x p → n ∈ s'.invalidateCalls
  | 0, _, _, _, _, _, h => by cases h
  | n + 1, s, s', hdeep, henum, hdone, h => by
    unfold loop at h
    cases hf : s.frontier with
    | nil =>
      rw [hf] at h
      obtain rfl := Option.some.inj h
      exact hdone
    | cons head rest =>
      obtain ⟨id, depth⟩ := head
      rw [hf] at h
      obtain ⟨hinv, hjudged, hpre, hcases⟩ := hdeep.toInv.turn hf maxDepth
      have hdeep' := hdeep.turn hb hf
      have hqueued : s.queued = id :: rest.map Prod.fst := by rw [queued, hf]; rfl
      rw [hdeep.kids hb (hf ▸ List.mem_cons_self)] at hcases
      rw [hqueued] at henum hcases
      rcases hcases with ⟨⟨q, hq, hlive⟩, hfrontier, hcalls⟩ | ⟨-, hfrontier, hcalls⟩
      · -- a live parent of an orphan would have been taken before it
        have hnot : id ∉ Orphans x p := by
          intro hid
          rw [hdeep.removed, not_or, not_or] at hlive
          have hqo : q ∈ Orphans x p :=
            (((orphans_reason x p hid).2 q hq).resolve_left hlive.1).resolve_left hlive.2.1
          have hqr : q ∉ (x.mark p).removedNodes := by
            rw [LineageIndex.mem_removedNodes_mark, not_or]
            exact ⟨hlive.2.1, hlive.1⟩
          exact hlive.2.2 (hdone q ((hbefore id hid q hq hqo hqr).mem_of_starts hn henum.starts) hqo)
        refine Deep.complete hb hn hbefore n hdeep' ?_ (fun m hm hmo => ?_) h
        · rw [hjudged, queued, hfrontier]
          cases henum with
          | expand hid _ => exact absurd hid hnot
          | skip _ hrest => exact hrest
        · rw [hcalls]
          rw [hjudged] at hm
          rcases List.mem_append.mp hm with hm | hm
          · exact hdone m hm hmo
          · exact absurd (List.mem_singleton.mp hm ▸ hmo) hnot
      · have hid : id ∈ Orphans x p := hdeep'.sound id (hcalls ▸ List.mem_append_right _ (List.mem_singleton_self id))
        refine Deep.complete hb hn hbefore n hdeep' ?_ (fun m hm hmo => ?_) h
        · rw [hjudged, queued, hfrontier, List.map_append, map_fst_depth]
          cases henum with
          | expand _ hrest => exact hrest
          | skip hnot _ => exact absurd hid hnot
        · rw [hcalls]
          rw [hjudged] at hm
          exact List.mem_append.mpr ((List.mem_append.mp hm).imp_left fun hm => hdone m hm hmo)

theorem Deep.loop {maxDepth : ℤ} (hb : Bounded x p maxDepth) : ∀ (n : ℕ) {s s' : Propagation}, s.Deep x p →
    Propagation.loop maxDepth n s = some s' → s'.Deep x p
  | 0, _, _, _, h => by cases h
  | n + 1, s, s', hdeep, h => by
    unfold Propagation.loop at h
    cases hf : s.frontier with
    | nil =>
      rw [hf] at h
      exact Option.some.inj h ▸ hdeep
    | cons head rest =>
      rw [hf] at h
      exact Deep.loop hb n (hdeep.turn hb hf) h

end Propagation

/-- **When exactly the orphans are invalidated.** With no path down from `p`
longer than the depth limit, the search invalidates the least closed set of
descendants of `p` if and only if the breadth-first order puts no orphan before
its parents. -/
theorem propagate_orphans_iff (maxDepth : ℤ) (x : LineageIndex) (p : UInt64) (hb : Bounded x p maxDepth) :
    ∃ s, propagate maxDepth x p = some s ∧ (ExactlyOrphans x p s.invalidateCalls ↔ ParentsFirst x p) := by
  have hseed := Propagation.deep_seed x p
  obtain ⟨-, hjudged, hqueued⟩ := Propagation.inv_seed x p
  obtain ⟨s, hs, -, hend⟩ := hseed.toInv.loop maxDepth (x.listed.length + 1) (by
    rw [hjudged]
    exact Nat.lt_succ_self _)
  have hdeep := hseed.loop hb _ hs
  have hmet : ∀ m, (m = p ∨ m ∈ s.invalidateCalls) → ∀ n ∈ x.getChildren m, n ∈ s.judged := by
    intro m hm n hn
    have hin := hdeep.met m hm n hn
    rwa [Propagation.queued, hend, List.map_nil, List.append_nil] at hin
  refine ⟨s, hs, fun hleast => ?_, ?_⟩
  · have hall : ∀ n, n ∈ Orphans x p ↔ n ∈ s.invalidateCalls := fun n =>
      ⟨fun hn => hn _ hleast.1.2, hdeep.sound n⟩
    obtain ⟨henum, hbefore⟩ := hseed.enumerates hb _ hs hall
    rw [hjudged, hqueued] at henum
    exact ⟨s.judged, henum, fun n hn => hbefore n hn (by rw [hjudged]; exact List.not_mem_nil)⟩
  · rintro ⟨B, henum, hbefore⟩
    have hnodup : B.Nodup := henum.nodup (nodup_fresh _ _)
    have hcomplete := hseed.complete hb hnodup hbefore _ (by rw [hjudged, hqueued]; exact henum)
      (fun n hn => by rw [hjudged] at hn; exact absurd hn List.not_mem_nil) hs
    have hclosed : Closed x p {n | n ∈ s.invalidateCalls} := by
      intro n m hn hm hq
      refine hcomplete n (hmet m hm n hn) (closed_orphans x p n m hn (hm.imp_right (hdeep.sound m)) fun q hq' => ?_)
      exact (hq q hq').imp_right fun h => h.imp_right (hdeep.sound q)
    exact ⟨⟨fun n hn => hdeep.sound n hn _ (closed_descendants x p), hclosed⟩,
      fun T hT n hn => hdeep.sound n hn T hT.2⟩

/-- Memory 2 is derived from 1. -/
def derived : LineageRecord := ⟨2, [1], .infer, 10⟩

/-- Memory 3 is derived from 1 and 2. -/
def merged : LineageRecord := ⟨3, [1, 2], .infer, 11⟩

theorem bounded_diamond {x : LineageIndex} (hone : (x.getChildren 1).Perm [2, 3]) (htwo : x.getChildren 2 = [3])
    (hthree : x.getChildren 3 = []) : Bounded x 1 5 := by
  have hall : ∀ k n, Descent x 1 k n → k = 1 ∧ (n = 2 ∨ n = 3) ∨ k = 2 ∧ n = 3 := by
    intro k n hd
    induction hd with
    | child hn => exact .inl ⟨rfl, by simpa using hone.mem_iff.mp hn⟩
    | step _ hn ih =>
      rcases ih with ⟨rfl, rfl | rfl⟩ | ⟨rfl, rfl⟩
      · rw [htwo] at hn
        exact .inr ⟨rfl, List.mem_singleton.mp hn⟩
      · rw [hthree] at hn
        exact absurd hn List.not_mem_nil
      · rw [hthree] at hn
        exact absurd hn List.not_mem_nil
  intro k n hd
  rcases hall k n hd with ⟨rfl, -⟩ | ⟨rfl, -⟩ <;> decide

/-- The children of 1 listed as 2, 3. -/
theorem propagate_orphans_listed :
    ∃ s, propagate 5 ((({} : LineageIndex).record merged).record derived) 1 = some s ∧
      (ExactlyOrphans ((({} : LineageIndex).record merged).record derived) 1 s.invalidateCalls ↔
        ParentsFirst ((({} : LineageIndex).record merged).record derived) 1) :=
  propagate_orphans_iff 5 ((({} : LineageIndex).record merged).record derived) 1
    (bounded_diamond (by decide) (by decide) (by decide))

/-- With the children of 1 listed as 3, 2, memory 3 is judged while 2 is still
live, and left as it is; listed the other way round both are invalidated. -/
theorem propagate_orphans_missed :
    Bounded ((({} : LineageIndex).record derived).record merged) 1 5 ∧
      (propagate 5 ((({} : LineageIndex).record derived).record merged) 1).map Propagation.invalidateCalls = some [2] ∧
      ¬ ExactlyOrphans ((({} : LineageIndex).record derived).record merged) 1 [2] ∧
      (propagate 5 ((({} : LineageIndex).record merged).record derived) 1).map Propagation.invalidateCalls =
        some [2, 3] := by
  refine ⟨bounded_diamond (by decide) (by decide) (by decide), by decide, fun hleast => ?_, by decide⟩
  have hparents : ((({} : LineageIndex).record derived).record merged).getParents 3 = [1, 2] := by decide
  have hmem : (3 : UInt64) ∈ ([2] : List UInt64) := by
    refine hleast.1.2 3 1 (by decide) (.inl rfl) fun q hq => .inr ?_
    rw [hparents] at hq
    simpa using hq
  exact absurd hmem (by decide)

end Lineage
end Amind
