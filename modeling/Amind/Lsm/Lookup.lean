/-
# What a lookup finds while nothing is compacted

A run of puts, removes and flushes is meant to behave as a map from keys to
the value last written (`lastWrite`). The memtable flags a removed key it
holds and ignores one it does not hold, and a lookup takes a flagged node for
an absent one. So a remove does not hide a value that is in a flushed table,
and the run behaves as the map exactly when no remove meets such a value
(`lastWrite_iff`).
-/
import Mathlib.Logic.Function.Basic
import Amind.Lsm.Engine

namespace Amind
namespace Lsm

open Run (run Along)
open Wal (Env Clock)

/-! ### The map -/

/-- The map after an operation. -/
def written (s : Key → Option Bytes) : Op → Key → Option Bytes
  | .putRaw k data _ _ => Function.update s k (some data)
  | .remove k _ => Function.update s k none
  | _ => s

/-- The value last written to a key, `none` if it was removed since. -/
def lastWrite (ops : List Op) : Key → Option Bytes := ops.foldl written fun _ => none

theorem lastWrite_concat (ops : List Op) (op : Op) : lastWrite (ops ++ [op]) = written (lastWrite ops) op := by
  simp [lastWrite]

namespace Engine

/-- The engine after an operation. -/
def next (e : Engine) (op : Op) : Engine := (e.exec op).1

/-! ### The parts of a lookup -/

/-- The memtable answers with a node that is not flagged; otherwise the
tables answer. -/
theorem get_of_node {e : Engine} (hi : e.immutableMemtable = none) (k : Key) :
    e.get k = match e.activeMemtable.node k with
      | some n => if n.isTombstone then live (e.tableHit k) else live (some n.value)
      | none => live (e.tableHit k) := by
  have hm : e.memHit k = (e.activeMemtable.node k).bind fun n => if n.isTombstone then none else some n.value := by
    rw [memHit, hi, MemTable.getRaw_eq]
    simp
  rw [get, hm]
  cases e.activeMemtable.node k with
  | none => rfl
  | some n => cases h : n.isTombstone <;> simp [h]

/-- A flushed memtable is the first table. -/
theorem tableHit_flushed (e : Engine) (k : Key) :
    e.flushed.tableHit k = ((SSTable.ofMemTable e.activeMemtable).get k).or (e.tableHit k) := by
  simp only [flushed, newTable, tableHit, probe, List.findSome?_cons]
  cases (SSTable.ofMemTable e.activeMemtable).get k <;> rfl

/-! ### The engine against the map -/

/-- The engine answers as the map `s`. -/
structure Answers (s : Key → Option Bytes) (e : Engine) : Prop where
  immutable : e.immutableMemtable = none
  put : ∀ k n, e.activeMemtable.node k = some n → n.isTombstone = false → n.value ≠ [] ∧ s k = some n.value
  removed : ∀ k n, e.activeMemtable.node k = some n → n.isTombstone = true →
    s k = none ∧ live (e.tableHit k) = none
  absent : ∀ k, e.activeMemtable.node k = none → live (e.tableHit k) = s k

theorem Answers.get_eq {s : Key → Option Bytes} {e : Engine} (h : Answers s e) (k : Key) : e.get k = s k := by
  rw [get_of_node h.immutable]
  cases hn : e.activeMemtable.node k with
  | none => exact h.absent k hn
  | some n =>
    cases ht : n.isTombstone with
    | true =>
      obtain ⟨hs, htab⟩ := h.removed k n hn ht
      simp [htab, hs, ht]
    | false =>
      obtain ⟨hne, hs⟩ := h.put k n hn ht
      simp [live_some hne, hs, ht]

/-- The step is a put of data, a remove or a flush, and compacts nothing. -/
def Uncompacted (e : Engine) : Op → Prop
  | .putRaw _ data full _ => data ≠ [] ∧ (full = true → e.l0Tables.length + 1 < L0_COMPACTION_THRESHOLD)
  | .remove _ _ => True
  | .flush => True
  | _ => False

/-- A remove meets no value of its key in the tables. -/
def RemovesHidden (e : Engine) : Op → Prop
  | .remove k _ => live (e.tableHit k) = none
  | _ => True

instance (e : Engine) : ∀ op, Decidable (e.Uncompacted op)
  | .putRaw _ data full _ =>
    inferInstanceAs (Decidable (data ≠ [] ∧ (full = true → e.l0Tables.length + 1 < L0_COMPACTION_THRESHOLD)))
  | .remove _ _ | .flush => inferInstanceAs (Decidable True)
  | .lazyFlush => inferInstanceAs (Decidable False)
  | .maybeCompact => inferInstanceAs (Decidable False)
  | .forceCompact => inferInstanceAs (Decidable False)

instance (e : Engine) : ∀ op, Decidable (e.RemovesHidden op)
  | .putRaw _ _ _ _ => inferInstanceAs (Decidable True)
  | .remove k _ => inferInstanceAs (Decidable (live (e.tableHit k) = none))
  | .flush | .lazyFlush | .maybeCompact | .forceCompact => inferInstanceAs (Decidable True)

/-- The engine with the memtable flushed answers the same. -/
theorem Answers.flushed {s : Key → Option Bytes} {e : Engine} (h : Answers s e) : Answers s e.flushed := by
  refine ⟨rfl, fun k n hn => absurd hn (by simp), fun k n hn => absurd hn (by simp), fun k _ => ?_⟩
  rw [tableHit_flushed, SSTable.get_ofMemTable]
  cases hn : e.activeMemtable.node k with
  | none => exact h.absent k hn
  | some n =>
    cases hf : n.isTombstone with
    | true => simp [(h.removed k n hn hf).1, hf]
    | false =>
      obtain ⟨hne, hs⟩ := h.put k n hn hf
      simp [live_some hne, hs, hf]

theorem Answers.putRaw {s : Key → Option Bytes} {e e' : Engine} (h : Answers s e) {k : Key}
    {data : Bytes} (hd : data ≠ []) (hi : e'.immutableMemtable = none)
    (hm : e'.activeMemtable = e.activeMemtable.putRaw k data) (ht : ∀ k, e'.tableHit k = e.tableHit k) :
    Answers (Function.update s k (some data)) e' := by
  have hnode : ∀ k', e'.activeMemtable.node k' =
      if k = k' then some ⟨k, data, false⟩ else e.activeMemtable.node k' := by
    intro k'
    rw [hm, MemTable.putRaw, SkipList.node_put]
  refine ⟨hi, ?_, ?_, ?_⟩
  · intro k' n hn hf
    rw [hnode] at hn
    by_cases hk : k = k'
    · subst hk
      rw [if_pos rfl, Option.some.injEq] at hn
      subst hn
      exact ⟨hd, by simp⟩
    · rw [if_neg hk] at hn
      rw [Function.update_of_ne (Ne.symm hk)]
      exact h.put k' n hn hf
  · intro k' n hn hf
    rw [hnode] at hn
    by_cases hk : k = k'
    · rw [if_pos hk, Option.some.injEq] at hn
      rw [← hn] at hf
      cases hf
    · rw [if_neg hk] at hn
      rw [Function.update_of_ne (Ne.symm hk), ht]
      exact h.removed k' n hn hf
  · intro k' hn
    rw [hnode] at hn
    by_cases hk : k = k'
    · rw [if_pos hk] at hn
      cases hn
    · rw [if_neg hk] at hn
      rw [Function.update_of_ne (Ne.symm hk), ht]
      exact h.absent k' hn

theorem Answers.remove {s : Key → Option Bytes} {e : Engine} (h : Answers s e) {k : Key} {clk : Clock}
    (hc : live (e.tableHit k) = none) : Answers (Function.update s k none) (e.remove k clk).1 := by
  have hnode : ∀ k', (e.remove k clk).1.activeMemtable.node k' =
      (e.activeMemtable.node k').map fun n => if k = k' then { n with isTombstone := true } else n :=
    fun k' => SkipList.node_remove e.activeMemtable k k'
  have htab : ∀ k', (e.remove k clk).1.tableHit k' = e.tableHit k' := fun _ => rfl
  refine ⟨h.immutable, ?_, ?_, ?_⟩
  · intro k' n hn hf
    rw [hnode] at hn
    obtain ⟨n₀, hn₀, rfl⟩ := Option.map_eq_some_iff.mp hn
    by_cases hk : k = k'
    · simp [hk] at hf
    · rw [if_neg hk] at hf ⊢
      rw [Function.update_of_ne (Ne.symm hk)]
      exact h.put k' n₀ hn₀ hf
  · intro k' n hn hf
    rw [hnode] at hn
    obtain ⟨n₀, hn₀, rfl⟩ := Option.map_eq_some_iff.mp hn
    rw [htab]
    by_cases hk : k = k'
    · subst hk
      exact ⟨by simp, hc⟩
    · rw [if_neg hk] at hf
      rw [Function.update_of_ne (Ne.symm hk)]
      exact h.removed k' n₀ hn₀ hf
  · intro k' hn
    rw [hnode, Option.map_eq_none_iff] at hn
    rw [htab]
    by_cases hk : k = k'
    · subst hk
      simp [hc]
    · rw [Function.update_of_ne (Ne.symm hk)]
      exact h.absent k' hn

theorem Answers.flushLocked {s : Key → Option Bytes} {e : Engine} (h : Answers s e) :
    Answers s e.flushLocked.1 := by
  cases hm : e.activeMemtable.isEmpty with
  | true =>
    rw [flushLocked_empty hm]
    exact h
  | false =>
    rw [flushLocked_eq h.immutable hm]
    exact h.flushed

theorem Answers.flushAndCompact {s : Key → Option Bytes} {e : Engine} (h : Answers s e)
    (hc : e.l0Tables.length + 1 < L0_COMPACTION_THRESHOLD) : Answers s e.flushAndCompact.1 := by
  have hno : e.flushed.maybeCompact = (e.flushed, []) := if_neg (not_le.mpr hc)
  rw [flushAndCompact_eq, hno]
  exact h.flushed

/-- One step of a run that compacts nothing and removes no value the tables
hold. -/
theorem Answers.next {s : Key → Option Bytes} {e : Engine} (h : Answers s e) {op : Op}
    (hu : e.Uncompacted op) (hr : e.RemovesHidden op) : Answers (written s op) (e.next op) := by
  cases op with
  | putRaw k data full clk =>
    obtain ⟨hd, hfull⟩ := hu
    have hput : Answers (Function.update s k (some data))
        { e with sequenceNumber := e.sequenceNumber + 1, activeMemtable := e.activeMemtable.putRaw k data } :=
      h.putRaw hd h.immutable rfl fun _ => rfl
    show Answers _ (e.putRaw k data full clk).1
    unfold Engine.putRaw
    split
    · rename_i hf
      exact hput.flushAndCompact (hfull hf)
    · exact hput
  | remove k clk => exact h.remove hr
  | flush => exact h.flushLocked
  | lazyFlush => cases hu
  | maybeCompact => cases hu
  | forceCompact => cases hu

/-! ### Runs -/

/-- A new engine. -/
def fresh (E : Env) : Engine := (construct E Disk.empty).1

/-- It has an empty directory's tables and log: none. -/
theorem construct_empty (E : Env) :
    construct E Disk.empty =
      (⟨SkipList.empty, none, [], [], [], 0, Manifest.empty, 0⟩, [.manifestSaved Manifest.empty]) := rfl

theorem answers_fresh (E : Env) : Answers (fun _ => none) (fresh E) := by
  rw [fresh, construct_empty]
  exact ⟨rfl, fun k n h => absurd h (by simp), fun k n h => absurd h (by simp), fun k _ => rfl⟩

/-- After a remove the tables answer, whatever the memtable held. -/
theorem get_remove {e : Engine} (hi : e.immutableMemtable = none) (k : Key) (clk : Clock) :
    (e.remove k clk).1.get k = live (e.tableHit k) := by
  have hnode : (e.remove k clk).1.activeMemtable.node k =
      (e.activeMemtable.node k).map fun n => if k = k then { n with isTombstone := true } else n :=
    SkipList.node_remove e.activeMemtable k k
  rw [get_of_node (e := (e.remove k clk).1) hi, hnode]
  cases e.activeMemtable.node k <;> simp <;> rfl

/-- **A run of puts, removes and flushes answers as the map after each of its
steps exactly when no remove meets a value of its key in the tables.** -/
theorem lastWrite_iff (E : Env) (ops : List Op) (hu : Along next Uncompacted (fresh E) ops) :
    (∀ pre, pre <+: ops → ∀ k, (run next (fresh E) pre).get k = lastWrite pre k) ↔
      Along next RemovesHidden (fresh E) ops := by
  refine Run.along_iff_of_inv (I := fun h e => Answers (lastWrite h) e) (fun h e op hi hu hr => ?_)
    (fun h e hi => hi.get_eq) (fun h e op hi _ hp => ?_) (answers_fresh E) hu
  · rw [lastWrite_concat]
    exact hi.next hu hr
  · cases op with
    | remove k clk =>
      -- up to here the run answers as the map, so the tables are all a remove can see
      have hk := hp k
      have hnext : e.next (.remove k clk) = (e.remove k clk).1 := rfl
      rw [lastWrite_concat, hnext, get_remove hi.immutable] at hk
      simpa [written, RemovesHidden] using hk
    | _ => trivial

end Engine

end Lsm
end Amind
