/-
# The lineage index in memory

For each derived memory the record of its parents, and beside it for each parent
the set of its children and the set of the nodes that are removed. The replay of
the log does the same as the calls.

`view` is what the index holds but for the reverse direction: the record of each
child and whether a node is removed. Each operation changes it as an overwriting
patch (`view_record`, `view_remove`, `view_mark`).
-/
import Mathlib.Data.List.AList
import Amind.Core.MemoryRecord
import Amind.Lib.Patch

namespace Amind
namespace Lineage

open Amind.Core

structure LineageRecord where
  childId : UInt64
  parentIds : List UInt64
  op : LineageOp
  createdAt : UInt32
  deriving DecidableEq, Repr

/-- The index; a set of ids as a list without repetition. -/
structure LineageIndex where
  childToRecord : AList (fun _ : UInt64 => LineageRecord) := ∅
  parentToChildren : AList (fun _ : UInt64 => List UInt64) := ∅
  removedNodes : List UInt64 := []

/-- One of the things an index holds. -/
inductive LineageKey
  | record (child : UInt64)
  | removed (id : UInt64)
  deriving DecidableEq, Repr

/-- What it holds there. -/
inductive Fact
  | record (r : LineageRecord)
  | removed
  deriving DecidableEq, Repr

namespace LineageIndex

variable (x : LineageIndex)

def addChild (child : UInt64) (m : AList fun _ : UInt64 => List UInt64) (parent : UInt64) :
    AList fun _ : UInt64 => List UInt64 :=
  m.insert parent (((m.lookup parent).getD []).insert child)

/-- The child is taken from the set of the parent, and an empty set from the table. -/
def dropChild (child : UInt64) (m : AList fun _ : UInt64 => List UInt64) (parent : UInt64) :
    AList fun _ : UInt64 => List UInt64 :=
  match m.lookup parent with
  | none => m
  | some children => if children.erase child = [] then m.erase parent else m.insert parent (children.erase child)

/-- A record takes the place of the child's former one. -/
def record (r : LineageRecord) : LineageIndex :=
  { x with
    childToRecord := x.childToRecord.insert r.childId r
    parentToChildren := r.parentIds.foldl (addChild r.childId) x.parentToChildren }

/-- A node is removed as a child and as a parent. -/
def remove (id : UInt64) : LineageIndex where
  removedNodes := x.removedNodes.insert id
  childToRecord := x.childToRecord.erase id
  parentToChildren :=
    match x.childToRecord.lookup id with
    | some r => (r.parentIds.foldl (dropChild id) x.parentToChildren).erase id
    | none => x.parentToChildren.erase id

/-- A node is marked as removed, its records stay. -/
def mark (id : UInt64) : LineageIndex := { x with removedNodes := x.removedNodes.insert id }

/-- The records and the removed nodes of the index. -/
def view : LineageKey → Option Fact
  | .record child => (x.childToRecord.lookup child).map .record
  | .removed id => if id ∈ x.removedNodes then some .removed else none

/-- The indexes have the same records and the same removed nodes. -/
def SameLineage (x y : LineageIndex) : Prop :=
  (∀ child, x.childToRecord.lookup child = y.childToRecord.lookup child) ∧
    ∀ id, id ∈ x.removedNodes ↔ id ∈ y.removedNodes

/-- What a record writes. -/
def storePatch (r : LineageRecord) : Patch LineageKey (Option Fact) := fun k =>
  if k = .record r.childId then some (some (.record r)) else none

/-- What the removal of a node writes. -/
def removePatch (id : UInt64) : Patch LineageKey (Option Fact) := fun k =>
  if k = .record id then some none else if k = .removed id then some (some .removed) else none

/-- What marking a node writes. -/
def markPatch (id : UInt64) : Patch LineageKey (Option Fact) := fun k =>
  if k = .removed id then some (some .removed) else none

/-- A record is kept under its child. -/
def Own : Prop := ∀ child r, x.childToRecord.lookup child = some r → r.childId = child

variable {x}

theorem sameLineage_iff {y : LineageIndex} : SameLineage x y ↔ x.view = y.view := by
  constructor
  · rintro ⟨hrec, hrem⟩
    funext k
    cases k with
    | record child => simp [view, hrec]
    | removed id => simp [view, hrem]
  · intro h
    refine ⟨fun child => ?_, fun id => ?_⟩
    · have hk : (x.childToRecord.lookup child).map Fact.record = (y.childToRecord.lookup child).map Fact.record :=
        congrFun h (.record child)
      exact Option.map_injective (fun _ _ h => Fact.record.inj h) hk
    · have hk := congrFun h (.removed id)
      unfold view at hk
      by_cases hx : id ∈ x.removedNodes <;> by_cases hy : id ∈ y.removedNodes <;> simp_all

theorem view_record (x : LineageIndex) (r : LineageRecord) : (x.record r).view = (storePatch r).apply x.view := by
  funext k
  cases k with
  | record child =>
    by_cases h : child = r.childId
    · subst h
      simp [view, record, storePatch, Patch.apply]
    · simp [view, record, storePatch, Patch.apply, h]
  | removed id => rfl

theorem view_remove (x : LineageIndex) (id : UInt64) : (x.remove id).view = (removePatch id).apply x.view := by
  funext k
  cases k with
  | record child =>
    by_cases h : child = id
    · subst h
      simp [view, remove, removePatch, Patch.apply]
    · simp [view, remove, removePatch, Patch.apply, h]
  | removed id' =>
    by_cases h : id' = id
    · simp [view, remove, removePatch, Patch.apply, h]
    · simp [view, remove, removePatch, Patch.apply, h]

theorem view_mark (x : LineageIndex) (id : UInt64) : (x.mark id).view = (markPatch id).apply x.view := by
  funext k
  cases k with
  | record child => rfl
  | removed id' =>
    by_cases h : id' = id
    · simp [view, mark, markPatch, Patch.apply, h]
    · simp [view, mark, markPatch, Patch.apply, h]

theorem own_empty : Own {} := fun _ _ h => by simp at h

theorem Own.record (h : x.Own) (r : LineageRecord) : (x.record r).Own := by
  intro child r' hl
  by_cases hc : child = r.childId
  · subst hc
    rw [LineageIndex.record, AList.lookup_insert] at hl
    exact (Option.some.inj hl) ▸ rfl
  · rw [LineageIndex.record, AList.lookup_insert_ne hc] at hl
    exact h child r' hl

theorem Own.remove (h : x.Own) (id : UInt64) : (x.remove id).Own := by
  intro child r hl
  by_cases hc : child = id
  · subst hc
    rw [LineageIndex.remove, AList.lookup_erase] at hl
    cases hl
  · rw [LineageIndex.remove, AList.lookup_erase_ne hc] at hl
    exact h child r hl

end LineageIndex
end Lineage
end Amind
