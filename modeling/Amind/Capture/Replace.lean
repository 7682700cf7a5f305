/-
# Replacing memories by a fact

When the reconciler says that a new fact replaces others, its targets are
removed one after the other, each with the record it was derived from, and then
the siblings of what was removed. A target whose own source is newer than that
of the fact turns the replacement around: the fact and its source are removed,
and the loop ends there.

What was removed before it stays removed, though, and so it depends on the order
of the targets whether anything is lost. Also a target that was derived from the
same source as the fact takes that away from it, and so may the siblings.
`allOrNothing_iff` says when none of this happens.

What the searches give and what the reconciler says of the siblings are given.

Key definitions: `Application.apply`, `AllOrNothing`, `taken`, `Replaces`, `Yields`.
-/
import Amind.Capture.Pipeline
import Amind.Core.FloatOps
import Amind.Server.Consolidation

namespace Amind
namespace Capture

open Amind.Core Amind.Memory
open Amind.Server (AliveIn aliveIn_iff aliveIn_remove)

inductive ReconcileOp
  /-- The new fact stands on its own. -/
  | ADD
  /-- It supersedes the targets. -/
  | REPLACE
  /-- The targets are withdrawn. -/
  | RETRACT
  /-- It is the target once more. -/
  | REINFORCE
  | NOOP
  deriving DecidableEq, Repr

/-- A decision to replace, and what is answered while it is applied. -/
structure Application (F : Type) where
  derivedId : UInt64
  targetIds : List UInt64
  agentId : Text
  /-- What the search by the embedding of a target gives. -/
  near : UInt64 → List (UInt64 × F)
  /-- What the reconciler says of a sibling. -/
  decide : UInt64 → ReconcileOp

section Definitions

variable {F : Type}

/-! ### The targets -/

/-- The store, the edges that were added, and the targets whose embeddings are searched
by. -/
structure Superseding (F : Type) where
  store : MemoryStore F
  edges : List (UInt64 × UInt64) := []
  superseded : List UInt64 := []

/-- The source of a record is newer than that of the candidate. -/
def isNewer (s : MemoryStore F) (derivedId : UInt64) (old : MemoryRecord F) : Bool :=
  match s.load derivedId with
  | none => false
  | some cand =>
    if old.parentId ≠ 0 ∧ cand.parentId ≠ 0 then
      match s.load old.parentId, s.load cand.parentId with
      | some oldRaw, some candRaw => candRaw.createdAt < oldRaw.createdAt
      | _, _ => false
    else false

def removeCandidate (s : MemoryStore F) (derivedId : UInt64) : MemoryStore F :=
  match s.load derivedId with
  | none => s
  | some cand => ((s.remove derivedId).1.remove cand.parentId).1

def removeTarget (s : MemoryStore F) (id : UInt64) (old : MemoryRecord F) : MemoryStore F :=
  if old.parentId ≠ 0 then ((s.remove id).1.remove old.parentId).1 else (s.remove id).1

def supersede (derivedId : UInt64) : List UInt64 → Superseding F → Superseding F
  | [], x => x
  | id :: ids, x =>
    match x.store.load id with
    | none => supersede derivedId ids { x with store := (x.store.remove id).1, edges := x.edges ++ [(derivedId, id)] }
    | some old =>
      if old.isAlive = false then supersede derivedId ids x
      else if isNewer x.store derivedId old = true then
        { x with store := removeCandidate x.store derivedId, edges := x.edges ++ [(id, derivedId)] }
      else
        supersede derivedId ids
          { store := removeTarget x.store id old
            edges := x.edges ++ [(derivedId, id)]
            superseded := if old.embedding = [] then x.superseded else x.superseded ++ [id] }

/-! ### The siblings -/

structure Cascade (F : Type) where
  store : MemoryStore F
  seen : List UInt64
  eligible : List UInt64 := []

def kMaxConcurrentReconcile : ℕ := 4

variable [FloatOps F] (a : Application F)

/-- One hit of a search. -/
def consider (c : Cascade F) (hit : UInt64 × F) : Cascade F :=
  if hit.1 ∈ c.seen then c
  else if a.derivedId ≤ hit.1 then c
  else if hit.2 < 0.35 then c
  else
    match c.store.load hit.1 with
    | none => c
    | some r =>
      if r.isAlive = false then c
      else if r.agentId ≠ a.agentId then c
      else if r.layer ≠ .derived then
        { c with
          seen := hit.1 :: c.seen
          store := if r.layer = .raw ∧ 0.85 ≤ hit.2 then (c.store.remove hit.1).1 else c.store }
      else { c with seen := hit.1 :: c.seen, eligible := c.eligible ++ [hit.1] }

/-- A sibling is removed if the new fact replaces or withdraws it, too. -/
def removeSibling (s : MemoryStore F) (id : UInt64) : MemoryStore F :=
  if a.decide id = .REPLACE ∨ a.decide id = .RETRACT then (s.remove id).1 else s

def cascade (x : Superseding F) : MemoryStore F :=
  let c := (x.superseded.flatMap a.near).foldl (consider a) ⟨x.store, a.derivedId :: a.targetIds, []⟩
  (c.eligible.take kMaxConcurrentReconcile).foldl (removeSibling a) c.store

/-- The store after the decision has been applied. -/
def Application.apply (s : MemoryStore F) : MemoryStore F := cascade a (supersede a.derivedId a.targetIds ⟨s, [], []⟩)

/-! ### All or nothing -/

/-- The id of the record that a record was derived from, or 0. -/
def parentOf (s : MemoryStore F) (id : UInt64) : UInt64 := (s.load id).elim 0 fun r => r.parentId

/-- The source of the record, which is a Raw record. -/
def RawParent (s : MemoryStore F) (id p : UInt64) : Prop :=
  p ≠ 0 ∧ parentOf s id = p ∧ ∃ r, s.load p = some r ∧ r.layer = .raw

def newerThan (s : MemoryStore F) (derivedId id : UInt64) : Bool := (s.load id).any (isNewer s derivedId)

/-- The fact and its source are alive, and no target is. -/
def Replaced (s s' : MemoryStore F) : Prop :=
  AliveIn s' a.derivedId ∧ (∀ p, RawParent s a.derivedId p → AliveIn s' p) ∧ ∀ id ∈ a.targetIds, ¬ AliveIn s' id

/-- The fact has been dropped, some target being newer, and neither a target nor the
source of one has been removed, nor anything else but the fact and its source. -/
structure Dropped (s s' : MemoryStore F) : Prop where
  dropped : AliveIn s a.derivedId ∧ ¬ AliveIn s' a.derivedId
  newer : ∃ id ∈ a.targetIds, newerThan s a.derivedId id = true
  targets : ∀ id ∈ a.targetIds, AliveIn s id → AliveIn s' id
  sources : ∀ id ∈ a.targetIds, ∀ p, RawParent s id p → AliveIn s p → AliveIn s' p
  siblings : ∀ id, AliveIn s id → id ≠ a.derivedId → id ≠ parentOf s a.derivedId → AliveIn s' id

def AllOrNothing (s s' : MemoryStore F) : Prop := Replaced a s s' ∨ Dropped a s s'

/-! ### What is removed -/

/-- A target and its source. -/
def withParent (s : MemoryStore F) (id : UInt64) : List UInt64 :=
  if parentOf s id ≠ 0 then [parentOf s id, id] else [id]

/-- The targets that are alive and have not gone with another one before, in order. -/
def taken (s : MemoryStore F) : List UInt64 → List UInt64 → List UInt64
  | _, [] => []
  | gone, id :: ids =>
    if AliveIn s id ∧ id ∉ gone then id :: taken s (withParent s id ++ gone) ids else taken s gone ids

/-- The targets that are taken, if none of them turns the replacement around. -/
def Application.taken (s : MemoryStore F) : List UInt64 := Capture.taken s [] a.targetIds

/-- What the searches give. -/
def Application.hits (s : MemoryStore F) : List (UInt64 × F) :=
  ((a.taken s).filter fun id => (s.load id).any fun r => r.embedding ≠ []).flatMap a.near

/-- A Raw record is removed as a sibling: the first hit of it that is similar at all is
very similar. -/
def IsSibling (s : MemoryStore F) (p : UInt64) : Prop :=
  p < a.derivedId ∧ (∃ r, s.load p = some r ∧ r.agentId = a.agentId) ∧
    ∃ hit, (a.hits s).find? (fun hit => hit.1 = p ∧ ¬ hit.2 < 0.35) = some hit ∧ 0.85 ≤ hit.2

/-- No target that is taken is newer, the fact is not the source of one, and its own source
is alive, is neither a target nor the source of one, and is no sibling. -/
structure Replaces (s : MemoryStore F) : Prop where
  older : ∀ id ∈ a.taken s, newerThan s a.derivedId id = false
  apart : ∀ id ∈ a.taken s, a.derivedId ∉ withParent s id
  source : ∀ p, RawParent s a.derivedId p → AliveIn s p ∧ p ∉ a.targetIds ∧
    (∀ id ∈ a.taken s, p ∉ withParent s id) ∧ ¬ IsSibling a s p

/-- The first target that is alive is newer, and neither the fact nor its source is the
source of a target, or its source a target. -/
structure Yields (s : MemoryStore F) : Prop where
  newer : ∃ id, (a.taken s).head? = some id ∧ newerThan s a.derivedId id = true
  targets : ∀ id ∈ a.targetIds, AliveIn s id → id ≠ parentOf s a.derivedId
  sources : ∀ id ∈ a.targetIds, ∀ p, RawParent s id p → AliveIn s p → p ≠ a.derivedId ∧ p ≠ parentOf s a.derivedId

end Definitions

/-! ### Stores without some records -/

section Without

variable {F : Type} {s s' : MemoryStore F} {gone : List UInt64} {id p : UInt64}

/-- The records that are gone have been removed, and nothing else has changed. -/
structure Without (s s' : MemoryStore F) (gone : List UInt64) : Prop where
  kept : ∀ id ∉ gone, s'.load id = s.load id
  dead : ∀ id ∈ gone, ¬ AliveIn s' id
  parent : ∀ id, (s'.load id).map (fun r => r.parentId) = (s.load id).map fun r => r.parentId
  created : ∀ id, (s'.load id).map (fun r => r.createdAt) = (s.load id).map fun r => r.createdAt

theorem Without.refl (s : MemoryStore F) : Without s s [] :=
  ⟨fun _ _ => rfl, fun _ h => absurd h List.not_mem_nil, fun _ => rfl, fun _ => rfl⟩

theorem Without.aliveIn (h : Without s s' gone) : AliveIn s' id ↔ AliveIn s id ∧ id ∉ gone := by
  by_cases hid : id ∈ gone
  · exact iff_of_false (h.dead id hid) fun ha => ha.2 hid
  · rw [aliveIn_iff, aliveIn_iff, h.kept id hid]
    exact (and_iff_left hid).symm

theorem parentOf_eq (s : MemoryStore F) (id : UInt64) :
    parentOf s id = ((s.load id).map fun r => r.parentId).getD 0 := by
  unfold parentOf
  cases s.load id <;> rfl

theorem Without.parentOf (h : Without s s' gone) (id : UInt64) : parentOf s' id = parentOf s id := by
  rw [parentOf_eq, parentOf_eq, h.parent]

theorem Without.remove (h : Without s s' gone) (id : UInt64) : Without s (s'.remove id).1 (id :: gone) := by
  refine ⟨fun x hx => ?_, fun x hx ha => ?_, fun x => ?_, fun x => ?_⟩
  · obtain ⟨hne, hx⟩ := not_or.mp (mt List.mem_cons.mpr hx)
    rw [MemoryStore.load_remove_other hne, h.kept x hx]
  · obtain ⟨hne, ha⟩ := aliveIn_remove.mp ha
    exact h.dead x ((List.mem_cons.mp hx).resolve_left hne) ha
  · rw [← h.parent x]
    by_cases hx : x = id
    · rw [hx, MemoryStore.load_remove_self, Option.map_map]
      rfl
    · rw [MemoryStore.load_remove_other hx]
  · rw [← h.created x]
    by_cases hx : x = id
    · rw [hx, MemoryStore.load_remove_self, Option.map_map]
      rfl
    · rw [MemoryStore.load_remove_other hx]

/-- Removing what is not there changes nothing. -/
theorem Without.remove_missing (h : Without s s' gone) (hid : s'.load id = none) : Without s (s'.remove id).1 gone := by
  have hsame : ∀ x, (s'.remove id).1.load x = s'.load x := by
    intro x
    by_cases hx : x = id
    · rw [hx, MemoryStore.load_remove_self, hid]
      rfl
    · exact MemoryStore.load_remove_other hx
  refine ⟨fun x hx => (hsame x).trans (h.kept x hx), fun x hx ha => ?_, fun x => ?_, fun x => ?_⟩
  · exact h.dead x hx (aliveIn_remove.mp ha).2
  · rw [hsame, h.parent]
  · rw [hsame, h.created]

theorem isNewer_iff {derivedId : UInt64} {old : MemoryRecord F} : isNewer s derivedId old = true ↔
    old.parentId ≠ 0 ∧ parentOf s derivedId ≠ 0 ∧ ∃ c o,
      (s.load (parentOf s derivedId)).map (fun r => r.createdAt) = some c ∧
      (s.load old.parentId).map (fun r => r.createdAt) = some o ∧ c < o := by
  unfold isNewer Capture.parentOf
  cases s.load derivedId with
  | none =>
    refine iff_of_false Bool.false_ne_true ?_
    rintro ⟨-, h, -⟩
    exact h rfl
  | some cand =>
    dsimp only [Option.elim]
    by_cases hp : old.parentId ≠ 0 ∧ cand.parentId ≠ 0
    · rw [if_pos hp]
      cases s.load old.parentId with
      | none => simp
      | some oldRaw =>
        cases s.load cand.parentId with
        | none => simp
        | some candRaw => simp [hp]
    · rw [if_neg hp]
      refine iff_of_false Bool.false_ne_true ?_
      rintro ⟨h₁, h₂, -⟩
      exact hp ⟨h₁, h₂⟩

theorem Without.isNewer (h : Without s s' gone) (derivedId : UInt64) (old : MemoryRecord F) :
    isNewer s' derivedId old = isNewer s derivedId old := by
  rw [Bool.eq_iff_iff, isNewer_iff, isNewer_iff, h.parentOf, h.created, h.created]

/-- The fact of a replacement that is turned around is there. -/
theorem removeCandidate_eq {derivedId : UInt64} {old : MemoryRecord F} (h : Capture.isNewer s derivedId old = true) :
    removeCandidate s derivedId = ((s.remove derivedId).1.remove (Capture.parentOf s derivedId)).1 := by
  have hparent := (isNewer_iff.mp h).2.1
  unfold removeCandidate
  unfold Capture.parentOf at hparent ⊢
  cases hs : s.load derivedId with
  | none =>
    rw [hs] at hparent
    exact absurd rfl hparent
  | some cand => rfl

theorem Without.removeTarget (h : Without s s' gone) {old : MemoryRecord F} (hold : s.load id = some old) :
    Without s (removeTarget s' id old) (withParent s id ++ gone) := by
  have hp : Capture.parentOf s id = old.parentId := by
    unfold Capture.parentOf
    rw [hold]
    rfl
  unfold Capture.removeTarget withParent
  rw [hp]
  split
  · exact (h.remove id).remove old.parentId
  · exact h.remove id

end Without

/-! ### What the targets come to -/

section Targets

variable {F : Type} {s : MemoryStore F} {gone : List UInt64} {id : UInt64} {derivedId : UInt64}

theorem mem_withParent_self (s : MemoryStore F) (id : UInt64) : id ∈ withParent s id := by
  unfold withParent
  split
  · exact List.mem_cons_of_mem _ List.mem_cons_self
  · exact List.mem_cons_self

/-- What is taken are targets that are alive. -/
theorem mem_taken : ∀ {ids gone : List UInt64}, id ∈ taken s gone ids → id ∈ ids ∧ AliveIn s id
  | [], _, h => absurd h List.not_mem_nil
  | x :: ids, gone, h => by
    unfold taken at h
    split at h
    · rename_i hx
      rcases List.mem_cons.mp h with rfl | h
      · exact ⟨List.mem_cons_self, hx.1⟩
      · obtain ⟨hid, ha⟩ := mem_taken h
        exact ⟨List.mem_cons_of_mem _ hid, ha⟩
    · obtain ⟨hid, ha⟩ := mem_taken h
      exact ⟨List.mem_cons_of_mem _ hid, ha⟩

/-- A target that is alive is taken, or goes with one that is. -/
theorem gone_of_target : ∀ ids gone : List UInt64, id ∈ ids → AliveIn s id →
    id ∈ gone ∨ ∃ t ∈ taken s gone ids, id ∈ withParent s t
  | x :: ids, gone, h, ha => by
    unfold taken
    rcases List.mem_cons.mp h with rfl | h
    · by_cases hx : AliveIn s id ∧ id ∉ gone
      · rw [if_pos hx]
        exact .inr ⟨id, List.mem_cons_self, mem_withParent_self s id⟩
      · exact .inl (by_contra fun hg => hx ⟨ha, hg⟩)
    · split
      · rcases gone_of_target ids (withParent s x ++ gone) h ha with hg | ⟨t, ht, hid⟩
        · rcases List.mem_append.mp hg with hg | hg
          · exact .inr ⟨x, List.mem_cons_self, hg⟩
          · exact .inl hg
        · exact .inr ⟨t, List.mem_cons_of_mem _ ht, hid⟩
      · exact gone_of_target ids gone h ha

/-- The embedding of the record is searched by. -/
def embedded (s : MemoryStore F) (id : UInt64) : Bool := (s.load id).any fun r => r.embedding ≠ []

/-- The targets that are taken before one that is newer. -/
def takenBefore (s : MemoryStore F) (derivedId : UInt64) (gone ids : List UInt64) : List UInt64 :=
  (taken s gone ids).takeWhile fun id => !newerThan s derivedId id

/-- **The loop takes target after target until one is newer, and then removes the fact.** -/
theorem supersede_spec : ∀ (ids : List UInt64) {gone : List UInt64} {x : Superseding F}, Without s x.store gone →
    ∃ gone', Without s (supersede derivedId ids x).store gone' ∧
      (∀ y, y ∈ gone' ↔ y ∈ gone ∨ (∃ t ∈ takenBefore s derivedId gone ids, y ∈ withParent s t) ∨
        (∃ t ∈ taken s gone ids, newerThan s derivedId t = true) ∧ (y = derivedId ∨ y = parentOf s derivedId)) ∧
      (supersede derivedId ids x).superseded =
        x.superseded ++ (takenBefore s derivedId gone ids).filter (embedded s)
  | [], gone, x, hx => by
    refine ⟨gone, hx, fun y => ?_, (List.append_nil _).symm⟩
    simp [takenBefore, taken]
  | id :: ids, gone, x, hx => by
    unfold supersede takenBefore taken
    cases hl : x.store.load id with
    | none =>
      have hnot : ¬ (AliveIn s id ∧ id ∉ gone) := by
        rw [← hx.aliveIn, aliveIn_iff, hl]
        rintro ⟨r, h, -⟩
        cases h
      rw [if_neg hnot]
      exact supersede_spec ids (x := { x with store := (x.store.remove id).1, edges := x.edges ++ [(derivedId, id)] })
        (hx.remove_missing hl)
    | some old =>
      dsimp only
      by_cases halive : old.isAlive = true
      · have htaken : AliveIn s id ∧ id ∉ gone := hx.aliveIn.mp (aliveIn_iff.mpr ⟨old, hl, halive⟩)
        have hold : s.load id = some old := (hx.kept id htaken.2).symm.trans hl
        have hnewer : newerThan s derivedId id = isNewer x.store derivedId old := by
          rw [hx.isNewer]
          unfold newerThan
          rw [hold]
          rfl
        rw [if_neg (by rw [halive]; decide), if_pos htaken, List.takeWhile_cons, ← hnewer]
        by_cases hn : newerThan s derivedId id = true
        · -- the replacement is turned around
          rw [if_pos hn, hn]
          refine ⟨parentOf s derivedId :: derivedId :: gone, ?_, fun y => ?_, (List.append_nil _).symm⟩
          · dsimp only
            rw [removeCandidate_eq (hnewer.symm.trans hn), hx.parentOf]
            exact (hx.remove derivedId).remove _
          · have hexists : ∃ t ∈ id :: taken s (withParent s id ++ gone) ids, newerThan s derivedId t = true :=
              ⟨id, List.mem_cons_self, hn⟩
            have hnone : ¬ ∃ t ∈ ([] : List UInt64), y ∈ withParent s t := fun h => List.not_mem_nil h.choose_spec.1
            rw [List.mem_cons, List.mem_cons, and_iff_right hexists]
            simp only [Bool.not_true, Bool.false_eq_true, if_false]
            tauto
        · rw [if_neg hn, Bool.eq_false_iff.mpr hn]
          obtain ⟨gone', hgone, hmem, hsup⟩ := supersede_spec ids
            (x := ⟨removeTarget x.store id old, x.edges ++ [(derivedId, id)],
              if old.embedding = [] then x.superseded else x.superseded ++ [id]⟩) (hx.removeTarget hold)
          refine ⟨gone', hgone, fun y => ?_, hsup.trans ?_⟩
          · rw [hmem]
            have hnot : ¬ newerThan s derivedId id = true := hn
            rw [Bool.not_false, if_pos rfl, List.exists_mem_cons_iff, List.exists_mem_cons_iff, List.mem_append]
            rw [or_iff_right hnot, or_comm (b := y ∈ gone), or_assoc, ← or_assoc (a := y ∈ withParent s id)]
            rfl
          · have hembedded : embedded s id = decide (old.embedding ≠ []) := by
              unfold embedded
              rw [hold]
              rfl
            unfold takenBefore
            rw [Bool.not_false, if_pos rfl, List.filter_cons, hembedded]
            by_cases he : old.embedding = []
            · rw [if_pos he, decide_eq_false (not_not.mpr he), if_neg Bool.false_ne_true]
            · rw [if_neg he, decide_eq_true he, if_pos rfl, List.append_assoc, List.singleton_append]
      · have hnot : ¬ (AliveIn s id ∧ id ∉ gone) := by
          rw [← hx.aliveIn, aliveIn_iff, hl]
          rintro ⟨r, h, ha⟩
          obtain rfl := Option.some.inj h
          exact halive ha
        rw [if_pos (Bool.eq_false_iff.mpr halive), if_neg hnot]
        exact supersede_spec ids hx

end Targets

/-! ### What the siblings come to -/

section Siblings

variable {F : Type} [FloatOps F] {a : Application F} {c : Cascade F} {hit : UInt64 × F} {id : UInt64}

/-- A hit changes nothing, or it is seen, and then it is a record of the agent that is
older than the fact. A Raw record is removed if it is very similar, another one is to
be asked about. -/
theorem consider_cases (a : Application F) (c : Cascade F) (hit : UInt64 × F) : consider a c hit = c ∨
    hit.1 ∉ c.seen ∧ hit.1 < a.derivedId ∧ ¬ hit.2 < 0.35 ∧ ∃ r, c.store.load hit.1 = some r ∧ r.isAlive = true ∧
      r.agentId = a.agentId ∧
      (r.layer = .raw ∧ consider a c hit =
          { c with seen := hit.1 :: c.seen, store := if 0.85 ≤ hit.2 then (c.store.remove hit.1).1 else c.store } ∨
        r.layer = .derived ∧ consider a c hit =
          { c with seen := hit.1 :: c.seen, eligible := c.eligible ++ [hit.1] }) := by
  unfold consider
  by_cases hseen : hit.1 ∈ c.seen
  · exact .inl (if_pos hseen)
  by_cases hid : a.derivedId ≤ hit.1
  · exact .inl (by rw [if_neg hseen, if_pos hid])
  by_cases hsim : hit.2 < 0.35
  · exact .inl (by rw [if_neg hseen, if_neg hid, if_pos hsim])
  rw [if_neg hseen, if_neg hid, if_neg hsim]
  cases hl : c.store.load hit.1 with
  | none => exact .inl rfl
  | some r =>
    dsimp only
    by_cases halive : r.isAlive = true
    · by_cases hagent : r.agentId = a.agentId
      · rw [if_neg (by rw [halive]; decide), if_neg (not_not.mpr hagent)]
        refine .inr ⟨hseen, not_le.mp hid, hsim, r, rfl, halive, hagent, ?_⟩
        cases hlayer : r.layer with
        | raw =>
          refine .inl ⟨rfl, ?_⟩
          rw [if_pos (by decide)]
          simp only [true_and]
        | derived => exact .inr ⟨rfl, if_neg (not_not.mpr rfl)⟩
      · rw [if_neg (by rw [halive]; decide), if_pos hagent]
        exact .inl rfl
    · rw [if_pos (Bool.eq_false_iff.mpr halive)]
      exact .inl rfl

/-- What has been seen, or is not hit, stays as it is. -/
theorem consider_other (h : id ∈ c.seen ∨ id ≠ hit.1) : (consider a c hit).store.load id = c.store.load id := by
  rcases consider_cases a c hit with heq | ⟨hseen, -, -, r, -, -, -, ⟨-, heq⟩ | ⟨-, heq⟩⟩
  · rw [heq]
  · have hne : id ≠ hit.1 := h.elim (fun hid heq => hseen (heq ▸ hid)) fun hne => hne
    rw [heq]
    dsimp only
    split
    · exact MemoryStore.load_remove_other hne
    · rfl
  · rw [heq]

theorem seen_consider (hit : UInt64 × F) (h : id ∈ c.seen) : id ∈ (consider a c hit).seen := by
  rcases consider_cases a c hit with heq | ⟨-, -, -, r, -, -, -, ⟨-, heq⟩ | ⟨-, heq⟩⟩
  · rwa [heq]
  · rw [heq]
    exact List.mem_cons_of_mem _ h
  · rw [heq]
    exact List.mem_cons_of_mem _ h

theorem aliveIn_consider (h : AliveIn (consider a c hit).store id) : AliveIn c.store id := by
  rcases consider_cases a c hit with heq | ⟨-, -, -, r, -, -, -, ⟨-, heq⟩ | ⟨-, heq⟩⟩
  · rwa [heq] at h
  · rw [heq] at h
    dsimp only at h
    split at h
    · exact (aliveIn_remove.mp h).2
    · exact h
  · rwa [heq] at h

/-- What is to be asked about has not been seen before, and is not a Raw record. -/
theorem eligible_consider (h : id ∈ (consider a c hit).eligible) :
    id ∈ c.eligible ∨ id ∉ c.seen ∧ ∀ r, c.store.load id = some r → r.layer ≠ .raw := by
  rcases consider_cases a c hit with heq | ⟨hseen, -, -, r, hl, -, -, ⟨-, heq⟩ | ⟨hlayer, heq⟩⟩
  · exact .inl (heq ▸ h)
  · rw [heq] at h
    exact .inl h
  · rw [heq] at h
    rcases List.mem_append.mp h with h | h
    · exact .inl h
    · obtain rfl := List.mem_singleton.mp h
      refine .inr ⟨hseen, fun r' hr' => ?_⟩
      obtain rfl := Option.some.inj (hl.symm.trans hr')
      rw [hlayer]
      decide

/-- What has been seen and is not to be asked about is left alone. -/
theorem foldl_consider_seen : ∀ (hits : List (UInt64 × F)) {c : Cascade F}, id ∈ c.seen → id ∉ c.eligible →
    (hits.foldl (consider a) c).store.load id = c.store.load id ∧ id ∉ (hits.foldl (consider a) c).eligible
  | [], _, _, he => ⟨rfl, he⟩
  | hit :: hits, c, hs, he => by
    have he' : id ∉ (consider a c hit).eligible := by
      intro h
      rcases eligible_consider h with h | ⟨h, -⟩
      · exact he h
      · exact h hs
    obtain ⟨hload, hel⟩ := foldl_consider_seen hits (seen_consider hit hs) he'
    exact ⟨hload.trans (consider_other (.inl hs)), hel⟩

theorem aliveIn_foldl_consider : ∀ (hits : List (UInt64 × F)) {c : Cascade F},
    AliveIn (hits.foldl (consider a) c).store id → AliveIn c.store id
  | [], _, h => h
  | _ :: hits, _, h => aliveIn_consider (aliveIn_foldl_consider hits h)

/-- A Raw record is removed if it is the agent's, older than the fact, and its first hit
that is similar at all is very similar. -/
theorem foldl_consider_raw {r : MemoryRecord F} (hraw : r.layer = .raw) (halive : r.isAlive = true) :
    ∀ (hits : List (UInt64 × F)) {c : Cascade F}, id ∉ c.seen → id ∉ c.eligible → c.store.load id = some r →
      (AliveIn (hits.foldl (consider a) c).store id ↔ ¬ (id < a.derivedId ∧ r.agentId = a.agentId ∧
        ∃ hit, hits.find? (fun hit => hit.1 = id ∧ ¬ hit.2 < 0.35) = some hit ∧ 0.85 ≤ hit.2)) ∧
      id ∉ (hits.foldl (consider a) c).eligible
  | [], c, _, he, hl => by
    refine ⟨iff_of_true (aliveIn_iff.mpr ⟨r, hl, halive⟩) ?_, he⟩
    rintro ⟨-, -, hit, h, -⟩
    cases h
  | hit :: hits, c, hs, he, hl => by
    rw [List.foldl_cons]
    rcases consider_cases a c hit with heq | ⟨-, hid, hsim, r', hl', -, hagent, hlayer⟩
    · -- nothing has changed, and if the hit is similar at all it is not the record's turn
      rw [heq]
      obtain ⟨halive', hel⟩ := foldl_consider_raw hraw halive hits hs he hl
      refine ⟨halive'.trans (not_congr (and_congr_right fun hid => and_congr_right fun hagent => ?_)), hel⟩
      have hskip : ¬ (hit.1 = id ∧ ¬ hit.2 < 0.35) := by
        rintro ⟨rfl, hsim⟩
        unfold consider at heq
        rw [if_neg hs, if_neg (not_le.mpr hid), if_neg hsim, hl] at heq
        dsimp only at heq
        rw [if_neg (by rw [halive]; decide), if_neg (not_not.mpr hagent), if_pos (by rw [hraw]; decide)] at heq
        exact hs (congrArg Cascade.seen heq ▸ List.mem_cons_self)
      rw [List.find?_cons_of_neg (by simpa using hskip)]
    · by_cases hne : id = hit.1
      · -- it is seen now, whether it is removed or not
        subst hne
        obtain rfl := Option.some.inj (hl.symm.trans hl')
        rcases hlayer with ⟨-, heq⟩ | ⟨hlayer, -⟩
        · have hel : hit.1 ∉ (consider a c hit).eligible := by rwa [heq]
          have hseen : hit.1 ∈ (consider a c hit).seen := by
            rw [heq]
            exact List.mem_cons_self
          obtain ⟨hload, hel⟩ := foldl_consider_seen hits hseen hel
          refine ⟨?_, hel⟩
          have hfind : (hit :: hits).find? (fun h => h.1 = hit.1 ∧ ¬ h.2 < 0.35) = some hit :=
            List.find?_cons_of_pos (by simpa using hsim)
          rw [aliveIn_iff, hload, ← aliveIn_iff, heq, hfind]
          dsimp only
          by_cases hhigh : 0.85 ≤ hit.2
          · rw [if_pos hhigh]
            exact iff_of_false (fun h => (aliveIn_remove.mp h).1 rfl) fun h => h ⟨hid, hagent, hit, rfl, hhigh⟩
          · rw [if_neg hhigh]
            refine iff_of_true (aliveIn_iff.mpr ⟨r, hl, halive⟩) ?_
            rintro ⟨-, -, hit', h, hhigh'⟩
            obtain rfl := Option.some.inj h
            exact hhigh hhigh'
        · rw [hraw] at hlayer
          cases hlayer
      · have hs' : id ∉ (consider a c hit).seen := by
          rcases hlayer with ⟨-, heq⟩ | ⟨-, heq⟩
          · rw [heq]
            exact fun h => (List.mem_cons.mp h).elim hne hs
          · rw [heq]
            exact fun h => (List.mem_cons.mp h).elim hne hs
        have he' : id ∉ (consider a c hit).eligible := by
          intro h
          rcases eligible_consider h with h | ⟨-, h⟩
          · exact he h
          · exact h r hl hraw
        have hl'' : (consider a c hit).store.load id = some r := (consider_other (.inr hne)).trans hl
        have hskip : ¬ (hit.1 = id ∧ ¬ hit.2 < 0.35) := fun h => hne h.1.symm
        rw [List.find?_cons_of_neg (by simpa using hskip)]
        exact foldl_consider_raw hraw halive hits hs' he' hl''

omit [FloatOps F] in
/-- A record that is not asked about is left alone at the end. -/
theorem foldl_removeSibling_other : ∀ (ids : List UInt64) (s : MemoryStore F), id ∉ ids →
    (ids.foldl (removeSibling a) s).load id = s.load id
  | [], _, _ => rfl
  | x :: ids, s, h => by
    obtain ⟨hne, h⟩ := not_or.mp (mt List.mem_cons.mpr h)
    rw [List.foldl_cons, foldl_removeSibling_other ids _ h]
    unfold removeSibling
    split
    · exact MemoryStore.load_remove_other hne
    · rfl

omit [FloatOps F] in
theorem aliveIn_foldl_removeSibling : ∀ (ids : List UInt64) {s : MemoryStore F},
    AliveIn (ids.foldl (removeSibling a) s) id → AliveIn s id
  | [], _, h => h
  | x :: ids, s, h => by
    have hx := aliveIn_foldl_removeSibling ids h
    unfold removeSibling at hx
    split at hx
    · exact (aliveIn_remove.mp hx).2
    · exact hx

variable {x : Superseding F}

theorem aliveIn_cascade (h : AliveIn (cascade a x) id) : AliveIn x.store id :=
  aliveIn_foldl_consider _ (aliveIn_foldl_removeSibling _ h)

/-- The fact and the targets are left alone. -/
theorem cascade_seen (h : id ∈ a.derivedId :: a.targetIds) : (cascade a x).load id = x.store.load id := by
  obtain ⟨hload, hel⟩ := foldl_consider_seen (a := a) (x.superseded.flatMap a.near)
    (c := ⟨x.store, a.derivedId :: a.targetIds, []⟩) h List.not_mem_nil
  unfold cascade
  rw [foldl_removeSibling_other _ _ fun hin => hel (List.mem_of_mem_take hin), hload]

theorem cascade_nil (h : x.superseded = []) : cascade a x = x.store := by
  unfold cascade
  rw [h]
  rfl

/-- A Raw record is left alone unless it is a sibling. -/
theorem cascade_raw {r : MemoryRecord F} (hraw : r.layer = .raw) (halive : r.isAlive = true)
    (hl : x.store.load id = some r) (h : id ∉ a.derivedId :: a.targetIds) :
    AliveIn (cascade a x) id ↔ ¬ (id < a.derivedId ∧ r.agentId = a.agentId ∧
      ∃ hit, (x.superseded.flatMap a.near).find? (fun hit => hit.1 = id ∧ ¬ hit.2 < 0.35) = some hit ∧
        0.85 ≤ hit.2) := by
  obtain ⟨hfold, hel⟩ := foldl_consider_raw (a := a) hraw halive (x.superseded.flatMap a.near)
    (c := ⟨x.store, a.derivedId :: a.targetIds, []⟩) h List.not_mem_nil hl
  rw [← hfold, aliveIn_iff, aliveIn_iff]
  unfold cascade
  rw [foldl_removeSibling_other _ _ fun hin => hel (List.mem_of_mem_take hin)]

end Siblings

/-! ### All or nothing -/

section Outcome

variable {F : Type} [FloatOps F] {a : Application F} {s : MemoryStore F}

/-- What is removed in the loop. -/
def Application.removed (a : Application F) (s : MemoryStore F) : MemoryStore F :=
  (supersede a.derivedId a.targetIds ⟨s, [], []⟩).store

omit [FloatOps F] in
theorem removed_spec (a : Application F) (s : MemoryStore F) : ∃ gone, Without s (a.removed s) gone ∧
    (∀ y, y ∈ gone ↔ (∃ t ∈ takenBefore s a.derivedId [] a.targetIds, y ∈ withParent s t) ∨
      (∃ t ∈ a.taken s, newerThan s a.derivedId t = true) ∧ (y = a.derivedId ∨ y = parentOf s a.derivedId)) ∧
    (supersede a.derivedId a.targetIds ⟨s, [], []⟩).superseded =
      (takenBefore s a.derivedId [] a.targetIds).filter (embedded s) := by
  obtain ⟨gone, hgone, hmem, hsup⟩ := supersede_spec a.targetIds (x := ⟨s, [], []⟩) (.refl s)
  exact ⟨gone, hgone, fun y => (hmem y).trans (or_iff_right List.not_mem_nil), hsup⟩

omit [FloatOps F] in
theorem takenBefore_of_older (h : ∀ id ∈ a.taken s, newerThan s a.derivedId id = false) :
    takenBefore s a.derivedId [] a.targetIds = a.taken s := by
  unfold takenBefore
  refine List.takeWhile_eq_self_iff.mpr fun id hid => ?_
  rw [h id hid]
  rfl

omit [FloatOps F] in
/-- Without a newer target all that are taken go. -/
theorem apply_older (h : ∀ id ∈ a.taken s, newerThan s a.derivedId id = false) : ∃ gone,
    Without s (a.removed s) gone ∧ (∀ y, y ∈ gone ↔ ∃ t ∈ a.taken s, y ∈ withParent s t) ∧
      (supersede a.derivedId a.targetIds ⟨s, [], []⟩).superseded.flatMap a.near = a.hits s := by
  obtain ⟨gone, hgone, hmem, hsup⟩ := removed_spec a s
  rw [takenBefore_of_older h] at hmem hsup
  refine ⟨gone, hgone, fun y => ?_, ?_⟩
  · rw [hmem]
    have hnone : ¬ ∃ t ∈ Capture.taken s [] a.targetIds, newerThan s a.derivedId t = true := by
      rintro ⟨t, ht, hn⟩
      rw [h t ht] at hn
      cases hn
    exact or_iff_left fun hex => hnone hex.1
  · rw [hsup]
    rfl

omit [FloatOps F] in
/-- With one, the fact goes, and its source. -/
theorem apply_newer {t : UInt64} (ht : t ∈ a.taken s) (hn : newerThan s a.derivedId t = true) : ∃ gone,
    Without s (a.removed s) gone ∧ a.derivedId ∈ gone ∧
      ∀ id, (a.taken s).head? = some id → newerThan s a.derivedId id = false → id ∈ gone := by
  obtain ⟨gone, hgone, hmem, -⟩ := removed_spec a s
  refine ⟨gone, hgone, (hmem _).mpr (.inr ⟨⟨t, ht, hn⟩, .inl rfl⟩), fun id hid hold => ?_⟩
  refine (hmem _).mpr (.inl ⟨id, ?_, mem_withParent_self s id⟩)
  unfold takenBefore
  unfold Application.taken at hid
  cases hl : Capture.taken s [] a.targetIds with
  | nil =>
    rw [hl] at hid
    cases hid
  | cons first rest =>
    rw [hl] at hid
    obtain rfl := Option.some.inj hid
    rw [List.takeWhile_cons, hold, Bool.not_false, if_pos rfl]
    exact List.mem_cons_self

/-- If it is the first that is taken, nothing else goes. -/
theorem apply_newer_first {t : UInt64} (ht : (a.taken s).head? = some t) (hn : newerThan s a.derivedId t = true) :
    ∃ gone, Without s (a.apply s) gone ∧ ∀ y, y ∈ gone ↔ y = a.derivedId ∨ y = parentOf s a.derivedId := by
  obtain ⟨gone, hgone, hmem, hsup⟩ := removed_spec a s
  have hnone : takenBefore s a.derivedId [] a.targetIds = [] := by
    unfold takenBefore
    unfold Application.taken at ht
    cases hl : Capture.taken s [] a.targetIds with
    | nil => rfl
    | cons first rest =>
      rw [hl] at ht
      obtain rfl := Option.some.inj ht
      rw [List.takeWhile_cons, hn]
      rfl
  rw [hnone] at hmem hsup
  refine ⟨gone, ?_, fun y => ?_⟩
  · unfold Application.apply
    rw [cascade_nil hsup]
    exact hgone
  · have hex : ∃ u ∈ a.taken s, newerThan s a.derivedId u = true :=
      ⟨t, List.mem_of_head? ht, hn⟩
    rw [hmem, and_iff_right hex, or_iff_right]
    rintro ⟨u, hu, -⟩
    exact List.not_mem_nil hu

/-- Once the loop has ended without a newer target, none of the targets is alive. -/
theorem targets_gone {gone : List UInt64} (hgone : Without s (a.removed s) gone)
    (hmem : ∀ y, y ∈ gone ↔ ∃ t ∈ a.taken s, y ∈ withParent s t) {id : UInt64} (hid : id ∈ a.targetIds) :
    ¬ AliveIn (a.apply s) id := by
  intro h
  obtain ⟨halive, hnot⟩ := hgone.aliveIn.mp (aliveIn_cascade h)
  rcases gone_of_target a.targetIds [] hid halive with hg | ht
  · exact List.not_mem_nil hg
  · exact hnot ((hmem id).mpr ht)

theorem replaced_iff (hold : ∀ id ∈ a.taken s, newerThan s a.derivedId id = false) :
    Replaced a s (a.apply s) ↔ AliveIn s a.derivedId ∧ a.derivedId ∉ a.targetIds ∧ Replaces a s := by
  obtain ⟨gone, hgone, hmem, hhits⟩ := apply_older hold
  have hfact : AliveIn (a.apply s) a.derivedId ↔ AliveIn s a.derivedId ∧ a.derivedId ∉ gone := by
    rw [aliveIn_iff, ← hgone.aliveIn, aliveIn_iff]
    unfold Application.apply
    rw [cascade_seen List.mem_cons_self]
    rfl
  have hsource : ∀ p, RawParent s a.derivedId p → p ∉ a.targetIds → p ∉ gone → AliveIn s p → p ≠ a.derivedId →
      (AliveIn (a.apply s) p ↔ ¬ IsSibling a s p) := by
    rintro p ⟨-, -, r, hl, hraw⟩ htarget hnot halive hne
    have hkept : (a.removed s).load p = some r := (hgone.kept p hnot).trans hl
    obtain ⟨r', hl', halive⟩ := aliveIn_iff.mp halive
    obtain rfl := Option.some.inj (hl.symm.trans hl')
    have hseen : p ∉ a.derivedId :: a.targetIds := fun h => (List.mem_cons.mp h).elim hne htarget
    refine (cascade_raw hraw halive hkept hseen).trans (not_congr ?_)
    unfold IsSibling
    rw [hhits, hl]
    simp
  constructor
  · rintro ⟨hf, hs, ht⟩
    obtain ⟨halive, hnot⟩ := hfact.mp hf
    have htarget : a.derivedId ∉ a.targetIds := fun h => ht _ h hf
    refine ⟨halive, htarget, hold, fun id hid hin => hnot ((hmem _).mpr ⟨id, hid, hin⟩), fun p hp => ?_⟩
    have hp' := hs p hp
    obtain ⟨hpalive, hpnot⟩ := hgone.aliveIn.mp (aliveIn_cascade hp')
    have hptarget : p ∉ a.targetIds := fun h => ht p h hp'
    refine ⟨hpalive, hptarget, fun id hid hin => hpnot ((hmem _).mpr ⟨id, hid, hin⟩), fun hsib => ?_⟩
    exact (hsource p hp hptarget hpnot hpalive hsib.1.ne).mp hp' hsib
  · rintro ⟨halive, htarget, h⟩
    have hnot : a.derivedId ∉ gone := by
      intro hin
      obtain ⟨id, hid, hin⟩ := (hmem _).mp hin
      exact h.apart id hid hin
    have hf := hfact.mpr ⟨halive, hnot⟩
    refine ⟨hf, fun p hp => ?_, fun id hid => targets_gone hgone hmem hid⟩
    obtain ⟨hpalive, hptarget, hpapart, hpsib⟩ := h.source p hp
    have hpnot : p ∉ gone := by
      intro hin
      obtain ⟨id, hid, hin⟩ := (hmem _).mp hin
      exact hpapart id hid hin
    by_cases hne : p = a.derivedId
    · rw [hne]
      exact hf
    · exact (hsource p hp hptarget hpnot hpalive hne).mpr hpsib

/-- If no target that is taken is newer, the fact is not dropped for one. -/
theorem not_dropped (hold : ∀ id ∈ a.taken s, newerThan s a.derivedId id = false) : ¬ Dropped a s (a.apply s) := by
  intro h
  obtain ⟨gone, hgone, hmem, -⟩ := apply_older hold
  obtain ⟨halive, hdead⟩ := h.dropped
  have hin : a.derivedId ∈ gone := by
    by_contra hnot
    have hkept : AliveIn (a.removed s) a.derivedId := hgone.aliveIn.mpr ⟨halive, hnot⟩
    rw [aliveIn_iff] at hkept hdead
    unfold Application.apply at hdead
    rw [cascade_seen List.mem_cons_self] at hdead
    exact hdead hkept
  obtain ⟨t, ht, -⟩ := (hmem _).mp hin
  obtain ⟨htarget, htalive⟩ := mem_taken ht
  exact targets_gone hgone hmem htarget (h.targets t htarget htalive)

theorem not_replaced {t : UInt64} (ht : t ∈ a.taken s) (hn : newerThan s a.derivedId t = true) :
    ¬ Replaced a s (a.apply s) := by
  obtain ⟨gone, hgone, hfact, -⟩ := apply_newer ht hn
  exact fun h => hgone.dead _ hfact (aliveIn_cascade h.1)

theorem dropped_iff {t : UInt64} (ht : t ∈ a.taken s) (hn : newerThan s a.derivedId t = true) :
    Dropped a s (a.apply s) ↔ AliveIn s a.derivedId ∧ a.derivedId ∉ a.targetIds ∧ Yields a s := by
  constructor
  · intro h
    obtain ⟨halive, hdead⟩ := h.dropped
    have htarget : a.derivedId ∉ a.targetIds := fun hin => hdead (h.targets _ hin halive)
    obtain ⟨first, hfirst⟩ := Option.ne_none_iff_exists'.mp
      (mt List.head?_eq_none_iff.mp (List.ne_nil_of_mem ht))
    obtain ⟨hin, hfalive⟩ := mem_taken (List.mem_of_head? hfirst)
    -- what is taken first is a target, so it must be the one that is newer
    have hnewer : newerThan s a.derivedId first = true := by
      by_contra hold
      obtain ⟨gone, hgone, -, hall⟩ := apply_newer ht hn
      have hdead := hgone.dead first (hall first hfirst (Bool.eq_false_iff.mpr hold))
      exact hdead (aliveIn_cascade (h.targets first hin hfalive))
    obtain ⟨gone, hgone, hmem⟩ := apply_newer_first hfirst hnewer
    refine ⟨halive, htarget, ⟨first, hfirst, hnewer⟩, fun id hid ha heq => ?_, fun id hid p hp ha => ?_⟩
    · exact hgone.dead id ((hmem id).mpr (.inr heq)) (h.targets id hid ha)
    · have hkept := (hgone.aliveIn.mp (h.sources id hid p hp ha)).2
      exact not_or.mp (mt (hmem p).mpr hkept)
  · rintro ⟨halive, htarget, h⟩
    obtain ⟨first, hfirst, hnewer⟩ := h.newer
    obtain ⟨gone, hgone, hmem⟩ := apply_newer_first hfirst hnewer
    have hkept : ∀ id, AliveIn s id → id ≠ a.derivedId → id ≠ parentOf s a.derivedId → AliveIn (a.apply s) id := by
      intro id ha hne hne'
      exact hgone.aliveIn.mpr ⟨ha, fun hin => ((hmem id).mp hin).elim hne hne'⟩
    refine ⟨⟨halive, hgone.dead _ ((hmem _).mpr (.inl rfl))⟩, ⟨first, (mem_taken (List.mem_of_head? hfirst)).1, hnewer⟩,
      fun id hid ha => hkept id ha (fun heq => htarget (heq ▸ hid)) (h.targets id hid ha),
      fun id hid p hp ha => ?_, hkept⟩
    obtain ⟨hne, hne'⟩ := h.sources id hid p hp ha
    exact hkept p ha hne hne'

/-- **A replacement is all or nothing if and only if the fact is alive and no target, and
either it replaces all that is taken or it yields to the first target that is alive.** -/
theorem allOrNothing_iff (a : Application F) (s : MemoryStore F) : AllOrNothing a s (a.apply s) ↔
    AliveIn s a.derivedId ∧ a.derivedId ∉ a.targetIds ∧ (Replaces a s ∨ Yields a s) := by
  by_cases h : ∃ id ∈ a.taken s, newerThan s a.derivedId id = true
  · obtain ⟨t, ht, hn⟩ := h
    have hnot : ¬ Replaces a s := by
      intro h
      rw [h.older t ht] at hn
      cases hn
    unfold AllOrNothing
    rw [or_iff_right (not_replaced ht hn), or_iff_right hnot]
    exact dropped_iff ht hn
  · have hold : ∀ id ∈ a.taken s, newerThan s a.derivedId id = false := by
      intro id hid
      exact Bool.eq_false_iff.mpr fun hn => h ⟨id, hid, hn⟩
    have hnot : ¬ Yields a s := by
      intro hy
      obtain ⟨first, hfirst, hn⟩ := hy.newer
      exact h ⟨first, List.mem_of_head? hfirst, hn⟩
    unfold AllOrNothing
    rw [or_iff_left (not_dropped hold), or_iff_left hnot]
    exact replaced_iff hold

end Outcome

/-! A fact 5 from a record 4, and what it replaces. -/

def sourceRecord (id : UInt64) (createdAt : UInt32) : MemoryRecord ℚ :=
  { MemoryRecord.zero with memoryId := id, layer := .raw, createdAt := createdAt }

def factRecord (id parentId : UInt64) : MemoryRecord ℚ :=
  { MemoryRecord.zero with memoryId := id, layer := .derived, parentId := parentId, createdAt := 9 }

def factStore (records : List (MemoryRecord ℚ)) : MemoryStore ℚ :=
  records.foldl MemoryStore.storeRecord (MemoryStore.new ⟨1, 3, 1, 10, 1, 100, .whole⟩)

def replacing (targetIds : List UInt64) : Application ℚ := ⟨5, targetIds, [], fun _ => [], fun _ => .ADD⟩

/-- The source of 2 is older than that of the fact, the source of 6 is newer. -/
def olderAndNewer : MemoryStore ℚ :=
  factStore [sourceRecord 1 10, factRecord 2 1, sourceRecord 3 30, factRecord 6 3, sourceRecord 4 20, factRecord 5 4]

def sharedSource : MemoryStore ℚ := factStore [sourceRecord 4 20, factRecord 2 4, factRecord 5 4]

/-- An older target is removed before a newer one is found; and a target takes the source
with it that it shares with the fact. -/
theorem not_allOrNothing : ¬ AllOrNothing (replacing [2, 6]) olderAndNewer ((replacing [2, 6]).apply olderAndNewer) ∧
    ¬ AllOrNothing (replacing [2]) sharedSource ((replacing [2]).apply sharedSource) := by
  refine ⟨?_, ?_⟩
  · rintro (⟨h, -⟩ | h)
    · exact absurd h (by decide)
    · exact absurd (h.targets 2 (by decide) (by decide)) (by decide)
  · rintro (⟨-, h, -⟩ | h)
    · exact absurd (h 4 ⟨by decide, by decide, sourceRecord 4 20, rfl, rfl⟩) (by decide)
    · exact absurd (h.targets 2 (by decide) (by decide)) (by decide)

end Capture
end Amind
