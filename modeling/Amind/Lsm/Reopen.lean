/-
# Closing and reopening

`Tracks` follows the sequence numbers of a run: no record the log can deliver
is above the engine's, and while the memtable is empty those above the
checkpoint are deletions the memtable ignored. With the layout of the tables
this determines what an engine finds after a close and a reopen
(`reopened_nonempty`, `reopened_empty`), and so exactly when that is what it
found before (`Tracks.reopens_iff`).
-/
import Amind.Lsm.WalView
import Amind.Lsm.Lookup
import Amind.Lsm.Compaction

namespace Amind
namespace Lsm

open Run (run Along)
open Wal (Env View WalRecord Clock)

/-! ### What compactions leave alone -/

namespace Engine

variable (E : Env) (e : Engine) (d : Disk)

/-- The memtable, the sequence number and the checkpoint are those of `e`. -/
structure SameWrites (e e' : Engine) : Prop where
  active : e'.activeMemtable = e.activeMemtable
  seq : e'.sequenceNumber = e.sequenceNumber
  checkpoint : e'.manifest.checkpointSeq = e.manifest.checkpointSeq

theorem sameWrites_afterMerge (level : Level) : SameWrites e (e.afterMerge level) := by
  cases level <;> exact ⟨rfl, rfl, rfl⟩

theorem sameWrites_compactL0 : SameWrites e e.compactL0.1 := by
  rcases e.compactL0_cases with ⟨-, hc⟩ | ⟨-, -, hc⟩ | ⟨-, -, hc⟩
  · rw [hc]
    exact ⟨rfl, rfl, rfl⟩
  · rw [hc]
    exact e.sameWrites_afterMerge .l0
  · rw [hc]
    have h := e.sameWrites_afterMerge .l0
    have h' := (e.afterMerge .l0).sameWrites_afterMerge .l1
    exact ⟨h'.active.trans h.active, h'.seq.trans h.seq, h'.checkpoint.trans h.checkpoint⟩

theorem sameWrites_maybeCompact : SameWrites e e.maybeCompact.1 := by
  unfold maybeCompact
  split
  · exact e.sameWrites_compactL0
  · exact ⟨rfl, rfl, rfl⟩

theorem sameWrites_forceCompact : SameWrites e e.forceCompact.1 := by
  unfold forceCompact
  split
  · exact e.sameWrites_compactL0
  · exact ⟨rfl, rfl, rfl⟩

theorem wal_mergeLevel (level : Level) : (d.applyAll E (e.mergeLevel level).2).wal = d.wal := by
  rw [applyAll_mergeLevel]
  exact (Disk.applyAll_fileRemoved E _ _).2.1

theorem wal_compactL0 : (d.applyAll E e.compactL0.2).wal = d.wal := by
  rcases e.compactL0_cases with ⟨-, hc⟩ | ⟨-, -, hc⟩ | ⟨-, -, hc⟩
  · rw [hc]
    rfl
  · rw [hc]
    exact wal_mergeLevel E e d .l0
  · rw [hc, Disk.applyAll_append, wal_mergeLevel, wal_mergeLevel]

theorem wal_maybeCompact : (d.applyAll E e.maybeCompact.2).wal = d.wal := by
  unfold maybeCompact
  split
  · exact wal_compactL0 E e d
  · rfl

theorem wal_forceCompact : (d.applyAll E e.forceCompact.2).wal = d.wal := by
  unfold forceCompact
  split
  · exact wal_compactL0 E e d
  · rfl

end Engine

/-! ### Sequence numbers -/

/-- The sequence numbers in the directory are at most `N`. -/
structure Bounded (E : Env) (N : ℕ) (d : Disk) : Prop where
  view : ∃ v : View, d.wal = v.files E.crc32c ∧ ∀ r ∈ v.records, r.seq.toNat ≤ N
  checkpoint : ∀ m ∈ d.manifest, m.checkpointSeq.toNat ≤ N

/-- The effect writes sequence numbers up to `N` only. -/
def Effect.Bounded (N : ℕ) : Effect → Prop
  | .walAppended r _ => r.seq.toNat ≤ N
  | .manifestSaved m => m.checkpointSeq.toNat ≤ N
  | _ => True

section Bounded

variable {E : Env} {N : ℕ} {e : Engine} {d : Disk}

theorem Bounded.mono (h : Bounded E N d) {N' : ℕ} (hN : N ≤ N') : Bounded E N' d where
  view := h.view.imp fun _ hv => ⟨hv.1, fun r hr => (hv.2 r hr).trans hN⟩
  checkpoint := fun m hm => (h.checkpoint m hm).trans hN

theorem Bounded.apply (h : Bounded E N d) {x : Effect} (hx : x.Bounded N) : Bounded E N (d.apply E x) := by
  obtain ⟨⟨v, hv, hr⟩, hm⟩ := h
  cases x with
  | tableWritten f t => exact ⟨⟨v, hv, hr⟩, hm⟩
  | fileRemoved f => exact ⟨⟨v, hv, hr⟩, hm⟩
  | manifestSaved m =>
    refine ⟨⟨v, hv, hr⟩, fun m' hm' => ?_⟩
    cases hm'
    exact hx
  | walTruncated =>
    refine ⟨⟨v.truncate, ?_, fun r hr' => hr r (v.records_truncate_subset r hr')⟩, hm⟩
    rw [View.files_truncate, ← hv]
    rfl
  | walAppended r clk =>
    refine ⟨⟨v.writeRecord E r clk, ?_, fun r' hr' => ?_⟩, hm⟩
    · rw [View.files_writeRecord, ← hv]
      rfl
    · rcases List.mem_append.mp ((View.records_writeRecord_sublist v r clk).subset hr') with h | h
      · exact hr r' h
      · rw [List.mem_singleton.mp h]
        exact hx

theorem Bounded.applyAll : ∀ {w : List Effect} {d : Disk}, Bounded E N d → (∀ x ∈ w, x.Bounded N) →
    Bounded E N (d.applyAll E w)
  | [], _, h, _ => h
  | _ :: _, _, h, hw =>
    (h.apply (hw _ List.mem_cons_self)).applyAll fun x hx => hw x (List.mem_cons_of_mem _ hx)

theorem Bounded.take (h : Bounded E N d) {w : List Effect} (hw : ∀ x ∈ w, x.Bounded N) (n : ℕ) :
    Bounded E N (d.applyAll E (w.take n)) :=
  h.applyAll fun x hx => hw x (List.mem_of_mem_take hx)

theorem bounded_mergeLevel (h : e.manifest.checkpointSeq.toNat ≤ N) (level : Level) :
    ∀ x ∈ (e.mergeLevel level).2, x.Bounded N := by
  intro x hx
  rw [Engine.mergeLevel_effects] at hx
  simp only [List.cons_append, List.nil_append, List.mem_cons, List.mem_map] at hx
  rcases hx with rfl | rfl | ⟨f, -, rfl⟩
  · trivial
  · show (e.afterMerge level).manifest.checkpointSeq.toNat ≤ N
    rw [(e.sameWrites_afterMerge level).checkpoint]
    exact h
  · trivial

theorem bounded_compactL0 (h : e.manifest.checkpointSeq.toNat ≤ N) : ∀ x ∈ e.compactL0.2, x.Bounded N := by
  rcases e.compactL0_cases with ⟨-, hc⟩ | ⟨-, -, hc⟩ | ⟨-, -, hc⟩
  · rw [hc]
    exact fun x hx => absurd hx List.not_mem_nil
  · rw [hc]
    exact bounded_mergeLevel h .l0
  · rw [hc]
    intro x hx
    rcases List.mem_append.mp hx with hx | hx
    · exact bounded_mergeLevel h .l0 x hx
    · exact bounded_mergeLevel (e := e.afterMerge .l0) h .l1 x hx

theorem bounded_maybeCompact (h : e.manifest.checkpointSeq.toNat ≤ N) : ∀ x ∈ e.maybeCompact.2, x.Bounded N := by
  unfold Engine.maybeCompact
  split
  · exact bounded_compactL0 h
  · exact fun x hx => absurd hx List.not_mem_nil

end Bounded

/-- The engine's sequence number is at least those the log can deliver, and
with an empty memtable only deletions are above the checkpoint. -/
structure Tracks (E : Env) (N : ℕ) (e : Engine) (d : Disk) : Prop where
  bounded : Bounded E N d
  seqBound : e.sequenceNumber.toNat ≤ N
  checkpoint : e.manifest.checkpointSeq ≤ e.sequenceNumber
  seq : ∀ r ∈ Wal.allRecords E d.wal, r.seq ≤ e.sequenceNumber
  deletes : e.activeMemtable.isEmpty = true → ∀ r ∈ Wal.allRecords E d.wal,
    e.manifest.checkpointSeq < r.seq → r.type = .delete

section Tracks

variable {E : Env} {N : ℕ} {e : Engine} {d d' : Disk}

theorem Tracks.mono (h : Tracks E N e d) {N' : ℕ} (hN : N ≤ N') : Tracks E N' e d :=
  ⟨h.bounded.mono hN, h.seqBound.trans hN, h.checkpoint, h.seq, h.deletes⟩

theorem Tracks.checkpointBound (h : Tracks E N e d) : e.manifest.checkpointSeq.toNat ≤ N :=
  (UInt64.le_iff_toNat_le.mp h.checkpoint).trans h.seqBound

theorem Tracks.sameWrites {e' : Engine} (h : Tracks E N e d) (hs : e.SameWrites e') (hw : d'.wal = d.wal)
    (hb : Bounded E N d') : Tracks E N e' d' where
  bounded := hb
  seqBound := by rw [hs.seq]; exact h.seqBound
  checkpoint := by rw [hs.seq, hs.checkpoint]; exact h.checkpoint
  seq := by rw [hw, hs.seq]; exact h.seq
  deletes := by rw [hw, hs.active, hs.checkpoint]; exact h.deletes

theorem Tracks.maybeCompact (h : Tracks E N e d) :
    Tracks E N e.maybeCompact.1 (d.applyAll E e.maybeCompact.2) :=
  h.sameWrites e.sameWrites_maybeCompact (e.wal_maybeCompact E d)
    (h.bounded.applyAll (bounded_maybeCompact h.checkpointBound))

/-- A compaction behind what has been written. -/
theorem Tracks.compacted {xs : List Effect} (h : Tracks E N e (d.applyAll E xs)) (hb : ∀ x ∈ xs, x.Bounded N) :
    Tracks E N e.maybeCompact.1 (d.applyAll E (xs ++ e.maybeCompact.2)) ∧
      ∀ x ∈ xs ++ e.maybeCompact.2, x.Bounded N := by
  rw [Disk.applyAll_append]
  refine ⟨h.maybeCompact, fun x hx => ?_⟩
  rcases List.mem_append.mp hx with hx | hx
  · exact hb x hx
  · exact bounded_maybeCompact h.checkpointBound x hx

/-- Everything is below the checkpoint of a flush. -/
theorem Tracks.flushed (h : Tracks E N e d) (hb : Bounded E N d')
    (hw : ∀ r ∈ Wal.allRecords E d'.wal, r ∈ Wal.allRecords E d.wal) : Tracks E N e.flushed d' where
  bounded := hb
  seqBound := h.seqBound
  checkpoint := le_rfl
  seq := fun r hr => h.seq r (hw r hr)
  deletes := fun _ r hr hlt => absurd (h.seq r (hw r hr)) (not_le.mpr hlt)

theorem Bounded.allRecords_truncate (h : Bounded E N d) :
    ∀ r ∈ Wal.allRecords E (Wal.truncate d.wal), r ∈ Wal.allRecords E d.wal := by
  obtain ⟨v, hv, -⟩ := h.view
  intro r hr
  rw [hv, ← View.files_truncate] at hr
  rw [hv]
  exact View.allRecords_truncate hr

theorem Tracks.truncateFirst (h : Tracks E N e d) :
    Tracks E N e.flushed (d.applyAll E
      [.tableWritten e.newTable.name e.newTable.table, .walTruncated, .manifestSaved e.flushed.manifest]) ∧
    ∀ x ∈ [Effect.tableWritten e.newTable.name e.newTable.table, .walTruncated,
      .manifestSaved e.flushed.manifest], x.Bounded N := by
  have hb : ∀ x ∈ [Effect.tableWritten e.newTable.name e.newTable.table, .walTruncated,
      .manifestSaved e.flushed.manifest], x.Bounded N := by
    simp only [List.forall_mem_cons, List.not_mem_nil, false_implies, implies_true, and_true]
    exact ⟨trivial, trivial, h.seqBound⟩
  exact ⟨h.flushed (h.bounded.applyAll hb) h.bounded.allRecords_truncate, hb⟩

theorem Tracks.saveFirst (h : Tracks E N e d) :
    Tracks E N e.flushed (d.applyAll E
      [.tableWritten e.newTable.name e.newTable.table, .manifestSaved e.flushed.manifest, .walTruncated]) ∧
    ∀ x ∈ [Effect.tableWritten e.newTable.name e.newTable.table, .manifestSaved e.flushed.manifest,
      .walTruncated], x.Bounded N := by
  have hb : ∀ x ∈ [Effect.tableWritten e.newTable.name e.newTable.table, .manifestSaved e.flushed.manifest,
      .walTruncated], x.Bounded N := by
    simp only [List.forall_mem_cons, List.not_mem_nil, false_implies, implies_true, and_true]
    exact ⟨trivial, h.seqBound, trivial⟩
  exact ⟨h.flushed (h.bounded.applyAll hb) h.bounded.allRecords_truncate, hb⟩

theorem Tracks.flushLocked (h : Tracks E N e d) (hi : e.immutableMemtable = none) :
    Tracks E N e.flushLocked.1 (d.applyAll E e.flushLocked.2) ∧ ∀ x ∈ e.flushLocked.2, x.Bounded N := by
  cases hm : e.activeMemtable.isEmpty with
  | true =>
    rw [Engine.flushLocked_empty hm]
    exact ⟨h, fun x hx => absurd hx List.not_mem_nil⟩
  | false =>
    rw [Engine.flushLocked_eq hi hm]
    exact h.truncateFirst

theorem Tracks.flushAndCompact (h : Tracks E N e d) :
    Tracks E N e.flushAndCompact.1 (d.applyAll E e.flushAndCompact.2) ∧
      ∀ x ∈ e.flushAndCompact.2, x.Bounded N := by
  rw [Engine.flushAndCompact_eq]
  exact h.saveFirst.1.compacted h.saveFirst.2

theorem succ_toNat {s : UInt64} {N : ℕ} (hs : s.toNat ≤ N) (hN : N + 1 < 2 ^ 64) :
    (s + 1).toNat = s.toNat + 1 ∧ s ≤ s + 1 := by
  have hlt : s.toNat + 1 < 2 ^ 64 := by omega
  have ht : (s + 1).toNat = s.toNat + 1 := by
    rw [UInt64.toNat_add]
    exact Nat.mod_eq_of_lt hlt
  refine ⟨ht, UInt64.le_iff_toNat_le.mpr ?_⟩
  omega

/-- A write takes the next sequence number. -/
theorem Tracks.logged (h : Tracks E N e d) (hN : N + 1 < 2 ^ 64) {m : MemTable} {r : WalRecord} (clk : Clock)
    (hr : r.seq = e.sequenceNumber + 1)
    (hm : m.isEmpty = true → e.activeMemtable.isEmpty = true ∧ r.type = .delete) :
    Tracks E (N + 1) { e with activeMemtable := m, sequenceNumber := e.sequenceNumber + 1 }
      (d.apply E (.walAppended r clk)) ∧ (Effect.walAppended r clk).Bounded (N + 1) := by
  obtain ⟨hs, hle⟩ := succ_toNat h.seqBound hN
  have hseq : (e.sequenceNumber + 1).toNat ≤ N + 1 := by
    have := h.seqBound
    omega
  have hb : (Effect.walAppended r clk).Bounded (N + 1) := by
    show r.seq.toNat ≤ N + 1
    rw [hr]
    exact hseq
  have hall : ∀ r' ∈ Wal.allRecords E (d.apply E (.walAppended r clk)).wal,
      r' ∈ Wal.allRecords E d.wal ∨ r' = r.stored := by
    obtain ⟨v, hv, -⟩ := h.bounded.view
    intro r' hr'
    have hw : (d.apply E (.walAppended r clk)).wal = (v.writeRecord E r clk).files E.crc32c := by
      rw [View.files_writeRecord, ← hv]
      rfl
    rw [hw] at hr'
    rw [hv]
    exact View.allRecords_writeRecord hr'
  refine ⟨⟨(h.bounded.mono (Nat.le_succ N)).apply hb, hseq, h.checkpoint.trans hle, ?_, ?_⟩, hb⟩
  · intro r' hr'
    rcases hall r' hr' with hr' | rfl
    · exact (h.seq r' hr').trans hle
    · exact hr.le
  · intro hempty r' hr' hlt
    obtain ⟨he, hdel⟩ := hm hempty
    rcases hall r' hr' with hr' | rfl
    · exact h.deletes he r' hr' hlt
    · exact hdel

/-- An operation keeps track, and writes bounded sequence numbers only. -/
theorem Tracks.exec (h : Tracks E N e d) (hl : Layout e d) (hN : N + 1 < 2 ^ 64) (op : Op) :
    Tracks E (N + 1) (e.exec op).1 (d.applyAll E (e.exec op).2) ∧ ∀ x ∈ (e.exec op).2, x.Bounded (N + 1) := by
  have h' := h.mono (Nat.le_succ N)
  cases op with
  | putRaw k data full clk =>
    obtain ⟨hw, hb⟩ := h.logged hN (m := e.activeMemtable.putRaw k data)
      (r := Wal.putRecord (e.sequenceNumber + 1) k data) clk rfl fun hm => by
        rw [MemTable.isEmpty_putRaw] at hm
        cases hm
    cases full with
    | false => exact ⟨hw, List.forall_mem_singleton.mpr hb⟩
    | true => exact ⟨hw.flushAndCompact.1, List.forall_mem_cons.mpr ⟨hb, hw.flushAndCompact.2⟩⟩
  | remove k clk =>
    obtain ⟨hw, hb⟩ := h.logged hN (m := MemTable.remove e.activeMemtable k)
      (r := Wal.deleteRecord (e.sequenceNumber + 1) k) clk rfl fun hm => by
        rw [MemTable.isEmpty_remove] at hm
        exact ⟨hm, rfl⟩
    exact ⟨hw, List.forall_mem_singleton.mpr hb⟩
  | flush => exact h'.flushLocked hl.immutable
  | lazyFlush =>
    show Tracks E (N + 1) e.lazyFlush.1 (d.applyAll E e.lazyFlush.2) ∧ ∀ x ∈ e.lazyFlush.2, x.Bounded (N + 1)
    cases hm : e.activeMemtable.isEmpty with
    | true =>
      rw [Engine.lazyFlush_empty hm]
      exact ⟨h', fun x hx => absurd hx List.not_mem_nil⟩
    | false =>
      rw [Engine.lazyFlush_eq e hm]
      exact (h'.flushLocked hl.immutable).1.compacted (h'.flushLocked hl.immutable).2
  | maybeCompact => exact ⟨h'.maybeCompact, bounded_maybeCompact h'.checkpointBound⟩
  | forceCompact =>
    have hb : ∀ x ∈ e.forceCompact.2, x.Bounded (N + 1) := by
      unfold Engine.forceCompact
      split
      · exact bounded_compactL0 h'.checkpointBound
      · exact fun x hx => absurd hx List.not_mem_nil
    exact ⟨h'.sameWrites e.sameWrites_forceCompact (e.wal_forceCompact E d) (h'.bounded.applyAll hb), hb⟩

theorem Bounded.seq_le (h : Bounded E N d) : ∀ r ∈ Wal.allRecords E d.wal, r.seq.toNat ≤ N := by
  obtain ⟨v, hv, hb⟩ := h.view
  intro r hr
  rw [hv, View.mem_allRecords] at hr
  rcases hr with hr | ⟨s, hs, hr⟩
  · obtain ⟨r₀, h₀, rfl⟩ := Wal.mem_delivered hr
    exact hb r₀ (List.mem_append_right _ h₀)
  · obtain ⟨r₀, h₀, rfl⟩ := Wal.mem_delivered hr
    exact hb r₀ (List.mem_append_left _ (List.mem_flatMap.mpr ⟨s, hs, h₀⟩))

theorem rebuild_isEmpty {rs : List WalRecord} (h : (Wal.rebuild rs).isEmpty = true) : rs = [] := by
  rw [List.eq_nil_iff_forall_not_mem]
  intro r hr
  have hn := MemTable.node_of_isEmpty h r.key
  rw [Wal.node_rebuild, Option.map_eq_none_iff, Wal.lastOf_eq_none] at hn
  exact hn r hr rfl

/-- An engine that has replayed the log is at the log's highest number. -/
theorem Bounded.replayWal (h : Bounded E N d) (hw : d'.wal = d.wal) (hb : Bounded E N d')
    (hc : e.manifest.checkpointSeq.toNat ≤ N) : Tracks E N (e.replayWal E d) d' := by
  have hmax : (Wal.maxSeq E d.wal).toNat ≤ N := by
    rcases Wal.maxSeq_mem E d.wal with h₀ | ⟨r, hr, h₀⟩
    · rw [h₀]
      exact Nat.zero_le _
    · rw [h₀]
      exact h.seq_le r hr
  refine ⟨hb, ?_, le_max_left _ _, ?_, ?_⟩
  · show (max e.manifest.checkpointSeq (Wal.maxSeq E d.wal)).toNat ≤ N
    rcases le_total e.manifest.checkpointSeq (Wal.maxSeq E d.wal) with hm | hm
    · rw [max_eq_right hm]
      exact hmax
    · rw [max_eq_left hm]
      exact hc
  · rw [hw]
    exact fun r hr => (Wal.seq_le_maxSeq hr).trans (le_max_right _ _)
  · intro hempty r hr hlt
    rw [hw] at hr
    have : r ∈ Wal.replay E d.wal e.manifest.checkpointSeq := List.mem_filter.mpr ⟨hr, decide_eq_true hlt⟩
    rw [rebuild_isEmpty hempty] at this
    cases this

theorem Tracks.recoverFlush (h : Tracks E N e d) (hi : e.immutableMemtable = none) :
    Tracks E N e.recoverFlush.1 (d.applyAll E e.recoverFlush.2) ∧ ∀ x ∈ e.recoverFlush.2, x.Bounded N := by
  cases hm : e.activeMemtable.isEmpty with
  | true =>
    rw [Engine.recoverFlush_empty hm]
    exact ⟨h, fun x hx => absurd hx List.not_mem_nil⟩
  | false =>
    rw [Engine.recoverFlush_eq hi hm]
    exact h.truncateFirst.1.compacted h.truncateFirst.2

theorem Bounded.construct (h : Bounded E N d) (hs : Stored d) :
    Tracks E N (Engine.construct E d).1 (d.applyAll E (Engine.construct E d).2) ∧
      ∀ x ∈ (Engine.construct E d).2, x.Bounded N := by
  have hload : (Engine.loadTables d).1.manifest.checkpointSeq.toNat ≤ N ∧
      (∀ x ∈ (Engine.loadTables d).2, x.Bounded N) ∧ (d.applyAll E (Engine.loadTables d).2).wal = d.wal := by
    rcases hs with ⟨hm, hf⟩ | ⟨m, hm, -⟩
    · rw [loadTables_fresh hm hf]
      exact ⟨Nat.zero_le N, List.forall_mem_singleton.mpr (Nat.zero_le N), rfl⟩
    · rw [loadTables_some hm]
      exact ⟨h.checkpoint m hm, fun x hx => absurd hx List.not_mem_nil, rfl⟩
  obtain ⟨hc, hb, hw⟩ := hload
  obtain ⟨ht, hb'⟩ := (h.replayWal hw (h.applyAll hb) hc).recoverFlush (hs.loadTables (E := E)).1.immutable
  show Tracks E N ((Engine.loadTables d).1.replayWal E d).recoverFlush.1
      (d.applyAll E ((Engine.loadTables d).2 ++ ((Engine.loadTables d).1.replayWal E d).recoverFlush.2)) ∧
    ∀ x ∈ (Engine.loadTables d).2 ++ ((Engine.loadTables d).1.replayWal E d).recoverFlush.2, x.Bounded N
  rw [Disk.applyAll_append]
  refine ⟨ht, fun x hx => ?_⟩
  rcases List.mem_append.mp hx with hx | hx
  · exact hb x hx
  · exact hb' x hx

end Tracks

/-- Layout and sequence numbers of a running engine; a readable directory with
bounded sequence numbers otherwise. -/
def Process.Tracked (E : Env) (N : ℕ) : Process → Prop
  | .running e d => Layout e d ∧ Tracks E N e d
  | .stopped d => Stored d ∧ Bounded E N d

theorem Process.Tracked.step {E : Env} {N : ℕ} {p : Process} (h : p.Tracked E N) (hN : N + 1 < 2 ^ 64)
    (ev : Event) : (p.step E ev).Tracked E (N + 1) := by
  cases p with
  | running e d =>
    obtain ⟨hl, ht⟩ := h
    have hstay : Process.Tracked E (N + 1) (.running e d) := ⟨hl, ht.mono (Nat.le_succ N)⟩
    cases ev with
    | exec op => exact ⟨(hl.exec op).1, (ht.exec hl hN op).1⟩
    | close =>
      exact ⟨hl.flushLocked.2.all, (ht.flushLocked hl.immutable).1.bounded.mono (Nat.le_succ N)⟩
    | crash op n =>
      exact ⟨(hl.exec op).2 n, (ht.bounded.mono (Nat.le_succ N)).take (ht.exec hl hN op).2 n⟩
    | construct => exact hstay
    | crashConstruct n => exact hstay
  | stopped d =>
    obtain ⟨hs, hb⟩ := h
    have hstay : Process.Tracked E (N + 1) (.stopped d) := ⟨hs, hb.mono (Nat.le_succ N)⟩
    cases ev with
    | construct => exact ⟨hs.construct.1, (hb.construct hs).1.mono (Nat.le_succ N)⟩
    | crashConstruct n => exact ⟨hs.construct.2 n, (hb.take (hb.construct hs).2 n).mono (Nat.le_succ N)⟩
    | exec op => exact hstay
    | close => exact hstay
    | crash op n => exact hstay

theorem Process.tracked_run (E : Env) (evs : List Event) (hN : evs.length < 2 ^ 64) :
    (run (Process.step E) Process.fresh evs).Tracked E evs.length := by
  induction evs using List.reverseRecOn with
  | nil =>
    refine ⟨Or.inl ⟨rfl, rfl⟩, ⟨⟨View.empty, rfl, fun r hr => by cases hr⟩, fun m hm => by cases hm⟩⟩
  | append_singleton evs ev ih =>
    rw [List.length_append] at hN ⊢
    rw [Run.run_concat]
    exact (ih (by simp at hN; omega)).step (by simpa using hN) ev

/-! ### What an opened engine finds -/

section Open

variable {E : Env} {d : Disk}

/-- What an engine finds whose L0 answers `a₀` when its recovery compacts:
L1 and L2 answer `a₁` and `a₂`, L1 with `n` tables. -/
def compactedHit (n : ℕ) (a₀ a₁ a₂ : Option Bytes) : Option Bytes :=
  if n + 1 < L1_COMPACTION_THRESHOLD then (a₁.or (Engine.live a₀)).or a₂
  else a₂.or (Engine.live (a₁.or (Engine.live a₀)))

theorem Engine.get_compactL0 {e : Engine} (hlen : 2 ≤ e.l0Tables.length) (hm : ∀ k, e.memHit k = none) (k : Key) :
    e.compactL0.1.get k =
      live (compactedHit e.l1Tables.length (probe e.l0Tables k) (probe e.l1Tables k) (probe e.l2Tables k)) := by
  unfold compactedHit
  rcases e.compactL0_cases with ⟨hlt, -⟩ | ⟨-, hl1, hc⟩ | ⟨-, hl1, hc⟩
  · exact absurd hlt (Nat.not_lt.mpr hlen)
  · rw [hc, if_pos hl1]
    show (e.afterMerge .l0).get k = _
    rw [get_afterMerge_l0, hm, Option.none_or]
  · rw [hc, if_neg (Nat.not_lt.mpr hl1)]
    show ((e.afterMerge .l0).afterMerge .l1).get k = _
    rw [get_afterMerge_l1, hm, Option.none_or]

/-- What an engine finds that has flushed its memtable and then looked whether
to compact. -/
theorem Engine.get_flushed_maybeCompact (e : Engine) (k : Key) :
    e.flushed.maybeCompact.1.get k =
      if e.l0Tables.length + 1 < L0_COMPACTION_THRESHOLD then live (e.flushed.tableHit k)
      else live (compactedHit e.l1Tables.length (probe e.flushed.l0Tables k) (probe e.l1Tables k)
        (probe e.l2Tables k)) := by
  have hmem : ∀ k', e.flushed.memHit k' = none := fun k' => rfl
  have hlen : e.flushed.l0Tables.length = e.l0Tables.length + 1 := rfl
  unfold Engine.maybeCompact
  rw [hlen]
  by_cases hc : L0_COMPACTION_THRESHOLD ≤ e.l0Tables.length + 1
  · rw [if_pos hc, if_neg (Nat.not_lt.mpr hc)]
    have h2 : 2 ≤ e.flushed.l0Tables.length := by
      rw [hlen]
      exact le_trans (by decide) hc
    exact Engine.get_compactL0 h2 hmem k
  · rw [if_neg hc, if_pos (Nat.lt_of_not_le hc), Engine.get, hmem, Option.none_or]

/-- With nothing in the memtables only the tables answer. -/
theorem Engine.get_of_isEmpty {e : Engine} (himm : e.immutableMemtable = none)
    (hempty : e.activeMemtable.isEmpty = true) (k : Key) : e.get k = live (e.tableHit k) := by
  rw [Engine.get, Engine.memHit, MemTable.getRaw_eq, MemTable.node_of_isEmpty hempty, himm]
  rfl

/-- What the replayed records leave for the key. -/
def replayHit (rs : List WalRecord) (k : Key) : Option Bytes := (Wal.lastOf rs k).map WalRecord.value

theorem get_ofMemTable_rebuild (rs : List WalRecord) (k : Key) :
    (SSTable.ofMemTable (Wal.rebuild rs)).get k = replayHit rs k := by
  rw [SSTable.get_ofMemTable, Wal.node_rebuild, replayHit, Option.map_map]
  rfl

/-- **What an opened engine finds**: the last replayed record of the key, then
the tables in the manifest's order, unless the recovery compacts them. -/
theorem get_construct (h : Stored d) (k : Key) :
    let m := d.recorded
    let rs := Wal.replay E d.wal m.checkpointSeq
    let a₁ := probe (d.load m.l1Files) k
    let a₂ := probe (d.load m.l2Files) k
    let a₀ := (replayHit rs k).or (probe (d.load m.l0Files) k)
    (Engine.construct E d).1.get k =
      if rs = [] ∨ (d.load m.l0Files).length + 1 < L0_COMPACTION_THRESHOLD then
        Engine.live (a₀.or (a₁.or a₂))
      else Engine.live (compactedHit (d.load m.l1Files).length a₀ a₁ a₂) := by
  intro m rs a₁ a₂ a₀
  -- the engine that has replayed the log
  let e : Engine := ⟨Wal.rebuild rs, none, d.load m.l0Files, d.load m.l1Files, d.load m.l2Files, m.nextSstId, m,
    max m.checkpointSeq (Wal.maxSeq E d.wal)⟩
  have hcon : (Engine.construct E d).1 = e.recoverFlush.1 := by
    show ((Engine.loadTables d).1.replayWal E d).recoverFlush.1 = _
    rw [h.loadTables_fst]
    rfl
  rw [hcon]
  have hprobe : probe e.flushed.l0Tables k = a₀ := by
    show probe (e.newTable :: d.load m.l0Files) k = a₀
    rw [probe_cons]
    show ((SSTable.ofMemTable (Wal.rebuild rs)).get k).or _ = a₀
    rw [get_ofMemTable_rebuild]
  by_cases hrs : rs = []
  · have hempty : e.activeMemtable.isEmpty = true := by
      show (Wal.rebuild rs).isEmpty = true
      rw [hrs]
      rfl
    have ha₀ : a₀ = probe (d.load m.l0Files) k := by
      show (replayHit rs k).or _ = _
      rw [hrs]
      rfl
    rw [if_pos (Or.inl hrs), Engine.recoverFlush_empty hempty, Engine.get_of_isEmpty rfl hempty, ha₀]
    rfl
  · have hempty : e.activeMemtable.isEmpty = false := by
      cases hb : e.activeMemtable.isEmpty with
      | false => rfl
      | true => exact absurd (rebuild_isEmpty hb) hrs
    rw [Engine.recoverFlush_eq rfl hempty]
    show e.flushed.maybeCompact.1.get k = _
    rw [Engine.get_flushed_maybeCompact, Engine.tableHit, hprobe]
    simp only [hrs, false_or]
    rfl

end Open

/-! ### Close and reopen -/

section Reopen

/-- A new engine on the directory that a closed one leaves. -/
def reopened (E : Env) (e : Engine) (d : Disk) : Engine := (Engine.construct E (d.applyAll E e.flushLocked.2)).1

/-- L0 has the key, or the engine's list and the manifest have the same
version of it first in L1, or else in L2. -/
def SameRank (e : Engine) (d : Disk) (k : Key) : Prop :=
  probe e.l0Tables k ≠ none ∨
    probe e.l1Tables k = probe (d.load e.manifest.l1Files) k ∧
      (probe e.l1Tables k = none → probe e.l2Tables k = probe (d.load e.manifest.l2Files) k)

/-- The key's lookup does not notice a close and a reopen. A key the memtable
holds must not be flagged over a value in the tables. For another key both
orders must rank the same version first; if the memtable is empty and the log
has deletions above the checkpoint, the reopened engine puts these in front,
and the tables must hold no value of their keys; if the recovery then
compacts, what the tables answer must be the first version in the order the
compaction leaves. -/
def CloseSafe (E : Env) (e : Engine) (d : Disk) (k : Key) : Prop :=
  match e.activeMemtable.node k with
  | some n => n.isTombstone = true → Engine.live (e.tableHit k) = none
  | none =>
    if e.activeMemtable.isEmpty = false ∨ Wal.replay E d.wal e.manifest.checkpointSeq = [] then SameRank e d k
    else if e.l0Tables.length + 1 < L0_COMPACTION_THRESHOLD then
      if ∃ r ∈ Wal.replay E d.wal e.manifest.checkpointSeq, r.key = k then Engine.live (e.tableHit k) = none
      else SameRank e d k
    else
      Engine.live (e.tableHit k) = Engine.live (compactedHit e.l1Tables.length
        (if ∃ r ∈ Wal.replay E d.wal e.manifest.checkpointSeq, r.key = k then some [] else probe e.l0Tables k)
        (probe (d.load e.manifest.l1Files) k) (probe (d.load e.manifest.l2Files) k))

instance (e : Engine) (d : Disk) (k : Key) : Decidable (SameRank e d k) := by
  unfold SameRank
  infer_instance

instance (E : Env) (e : Engine) (d : Disk) (k : Key) : Decidable (CloseSafe E e d k) := by
  unfold CloseSafe
  cases e.activeMemtable.node k <;> infer_instance

variable {E : Env} {N : ℕ} {e : Engine} {d : Disk}

theorem probe_eq_none_iff {ts : List Table} {k : Key} : probe ts k = none ↔ ∀ t ∈ ts, t.table.get k = none := by
  simp [probe]

theorem Layout.probe_l1_none (h : Layout e d) (k : Key) :
    probe e.l1Tables k = none ↔ probe (d.load e.manifest.l1Files) k = none := by
  rw [probe_eq_none_iff, probe_eq_none_iff]
  exact ⟨fun hn t ht => hn t (h.l1.symm.subset ht), fun hn t ht => hn t (h.l1.subset ht)⟩

/-- The two orders give the same answer exactly when they rank the same
version first. -/
theorem Layout.sameRank_iff (h : Layout e d) (k : Key) :
    Engine.live ((probe e.l0Tables k).or
        ((probe (d.load e.manifest.l1Files) k).or (probe (d.load e.manifest.l2Files) k))) =
      Engine.live (e.tableHit k) ↔ SameRank e d k := by
  have hnone := h.probe_l1_none k
  have h₁ := Engine.live_eq (probe_ne_deletion h.l1_noDeletion k)
  have h₂ := Engine.live_eq (probe_ne_deletion h.l2_noDeletion k)
  have h₁' := Engine.live_eq (probe_ne_deletion (fun t ht => h.l1_noDeletion t (h.l1.symm.subset ht)) k)
  have h₂' := Engine.live_eq (probe_ne_deletion (fun t ht => h.l2_noDeletion t (h.l2.symm.subset ht)) k)
  unfold SameRank Engine.tableHit
  generalize probe e.l0Tables k = a₀, probe e.l1Tables k = a₁, probe e.l2Tables k = a₂,
    probe (d.load e.manifest.l1Files) k = b₁, probe (d.load e.manifest.l2Files) k = b₂ at *
  rcases a₀ with _ | v
  · rcases a₁ with _ | v₁
    · rw [hnone.mp rfl]
      simp [h₂, h₂', eq_comm]
    · rcases b₁ with _ | w₁
      · exact absurd (hnone.mpr rfl) (by simp)
      · simp [h₁, h₁', eq_comm]
  · simp

/-- A memtable with entries is flushed, and the log delivers nothing. -/
theorem reopened_nonempty (h : Layout e d) (ht : Tracks E N e d) (hm : e.activeMemtable.isEmpty = false) (k : Key) :
    (reopened E e d).get k = Engine.live (((SSTable.ofMemTable e.activeMemtable).get k).or
      ((probe e.l0Tables k).or
        ((probe (d.load e.manifest.l1Files) k).or (probe (d.load e.manifest.l2Files) k)))) := by
  have hl := (h.truncateFirst (E := E)).1
  have ht' := ht.truncateFirst.1
  unfold reopened
  rw [Engine.flushLocked_eq h.immutable hm]
  generalize hd' : d.applyAll E [.tableWritten e.newTable.name e.newTable.table, .walTruncated,
    .manifestSaved e.flushed.manifest] = d' at hl ht'
  have hread : ∀ f ∈ e.manifest.files, d'.read f = d.read f := by
    intro f hf
    have hne : f ≠ e.newTable.name := by
      rintro rfl
      exact h.listed.sst_fresh hf
    rw [← hd']
    simp [hne]
  have hrs : Wal.replay E d'.wal e.flushed.manifest.checkpointSeq = [] := by
    refine List.filter_eq_nil_iff.mpr fun r hr => ?_
    rw [decide_eq_true_iff]
    exact not_lt.mpr (ht'.seq r hr)
  rw [get_construct (hl.stored hl.saved fun _ _ => rfl) k, Disk.recorded_eq hl.saved, hrs]
  rw [if_pos (Or.inl rfl), ← hl.l0]
  show Engine.live ((probe (e.newTable :: e.l0Tables) k).or ((probe (d'.load e.manifest.l1Files) k).or
    (probe (d'.load e.manifest.l2Files) k))) = _
  rw [probe_cons, Option.or_assoc, Disk.load_congr fun f hf => hread f (by simp [Manifest.files, hf]),
    Disk.load_congr fun f hf => hread f (by simp [Manifest.files, hf])]
  rfl

/-- The deletions the log has above the checkpoint. -/
theorem replayHit_deletes {rs : List WalRecord} (h : ∀ r ∈ rs, r.type = .delete) (k : Key) :
    replayHit rs k = if ∃ r ∈ rs, r.key = k then some [] else none := by
  unfold replayHit
  cases hl : Wal.lastOf rs k with
  | none =>
    have hno : ¬ ∃ r ∈ rs, r.key = k := fun ⟨r, hr, hk⟩ => Wal.lastOf_eq_none.mp hl r hr hk
    rw [if_neg hno]
    rfl
  | some r =>
    obtain ⟨hr, hk⟩ := Wal.lastOf_mem hl
    rw [if_pos ⟨r, hr, hk⟩, Option.map_some, WalRecord.value, h r hr]

/-- An empty memtable leaves the directory as it is. -/
theorem reopened_empty (h : Layout e d) (ht : Tracks E N e d) (hm : e.activeMemtable.isEmpty = true) (k : Key) :
    let rs := Wal.replay E d.wal e.manifest.checkpointSeq
    let a₀ := (if ∃ r ∈ rs, r.key = k then some [] else none).or (probe e.l0Tables k)
    let b₁ := probe (d.load e.manifest.l1Files) k
    let b₂ := probe (d.load e.manifest.l2Files) k
    (reopened E e d).get k =
      if rs = [] ∨ e.l0Tables.length + 1 < L0_COMPACTION_THRESHOLD then Engine.live (a₀.or (b₁.or b₂))
      else Engine.live (compactedHit e.l1Tables.length a₀ b₁ b₂) := by
  intro rs a₀ b₁ b₂
  have hdel : ∀ r ∈ rs, r.type = .delete := fun r hr =>
    ht.deletes hm r (List.mem_filter.mp hr).1 (by simpa using (List.mem_filter.mp hr).2)
  unfold reopened
  rw [Engine.flushLocked_empty hm]
  show (Engine.construct E d).1.get k = _
  rw [get_construct (h.stored h.saved fun _ _ => rfl) k, Disk.recorded_eq h.saved, ← h.l0, ← h.l1.length_eq,
    replayHit_deletes hdel]

/-- A lookup before the close, for a key the memtable does not hold. -/
theorem get_of_absent (h : Layout e d) {k : Key} (hn : e.activeMemtable.node k = none) :
    e.get k = Engine.live (e.tableHit k) := by
  rw [Engine.get_of_node h.immutable, hn]

theorem Tracks.reopens_iff (h : Layout e d) (ht : Tracks E N e d) (k : Key) :
    (reopened E e d).get k = e.get k ↔ CloseSafe E e d k := by
  unfold CloseSafe
  cases hm : e.activeMemtable.isEmpty with
  | false =>
    rw [reopened_nonempty h ht hm, SSTable.get_ofMemTable]
    cases hn : e.activeMemtable.node k with
    | none =>
      rw [get_of_absent h hn, if_pos (Or.inl rfl), ← h.sameRank_iff]
      rfl
    | some n =>
      rw [Engine.get_of_node h.immutable, hn]
      cases hf : n.isTombstone with
      | false => simp [hf]
      | true =>
        simp only [hf, if_true, Option.map_some, Option.some_or, Engine.live_nil, true_implies]
        exact eq_comm
  | true =>
    have hn := MemTable.node_of_isEmpty hm k
    rw [reopened_empty h ht hm, hn, get_of_absent h hn]
    simp only [Bool.true_eq_false, false_or]
    by_cases hrs : Wal.replay E d.wal e.manifest.checkpointSeq = []
    · rw [if_pos (Or.inl hrs), if_pos hrs, ← h.sameRank_iff, hrs]
      simp
    · rw [if_neg hrs]
      simp only [hrs, false_or]
      by_cases hc : e.l0Tables.length + 1 < L0_COMPACTION_THRESHOLD
      · rw [if_pos hc, if_pos hc]
        by_cases hd : ∃ r ∈ Wal.replay E d.wal e.manifest.checkpointSeq, r.key = k
        · rw [if_pos hd, if_pos hd]
          simp [eq_comm]
        · rw [if_neg hd, if_neg hd, ← h.sameRank_iff]
          rfl
      · rw [if_neg hc, if_neg hc]
        by_cases hd : ∃ r ∈ Wal.replay E d.wal e.manifest.checkpointSeq, r.key = k
        · rw [if_pos hd, if_pos hd, eq_comm]
          rfl
        · rw [if_neg hd, if_neg hd, eq_comm]
          rfl

end Reopen

end Lsm
end Amind
