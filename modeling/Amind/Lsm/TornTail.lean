/-
# A record cut short at the end of the log

A crash can leave the last record of `wal.log` cut at any byte (`Disk.torn`).
The reader stops there, so the torn directory is recovered as the whole one.
What the recovery does with the torn bytes decides what becomes of later
writes. If a record above the checkpoint is replayed, the recovery flushes and
cuts the log, and the process that follows is the one that opened the whole
directory (`step_construct_torn`). If nothing is replayed the bytes stay, later
records are appended behind them, and the next replay stops before those.
-/
import Amind.Lsm.Recovery

namespace Amind
namespace Lsm

open Run (run Along)
open Wal (Env View WalRecord)

/-- The directory with the first `c` bytes of a record at the end of
`wal.log`. -/
def Disk.torn (E : Env) (d : Disk) (r : WalRecord) (c : ℕ) : Disk :=
  { d with wal := { d.wal with live := d.wal.live ++ (Wal.encode E.crc32c r).take c } }

/-- A directory whose log has the records of `v`, all whole. -/
structure WholeLog (E : Env) (d : Disk) (v : View) : Prop where
  stored : Stored d
  wal : d.wal = v.files E.crc32c
  ordered : v.Ordered
  small : ∀ r ∈ v.records, r.Small

/-- What the directory has for the key: the last unflushed record or else what
the tables hold. -/
def Disk.kept (d : Disk) (v : View) (k : Key) : Option Bytes :=
  (replayHit (v.unflushed d.recorded.checkpointSeq) k).or (d.hit d.recorded k)

section Torn

variable {E : Env} {d : Disk} {v : View} {r : WalRecord} {c : ℕ}

theorem WholeLog.keeps (h : WholeLog E d v) : Keeps E (d.kept v) d.recorded d v :=
  ⟨h.wal, h.ordered, h.small, fun _ _ hk _ => hk⟩

/-! ### Reading the torn log -/

/-- The reader stops at the torn record. -/
theorem WholeLog.segmentRecords_torn (h : WholeLog E d v) (hc : c < (Wal.encode E.crc32c r).length) :
    Wal.segmentRecords E.crc32c (d.torn E r c).wal.live = Wal.segmentRecords E.crc32c d.wal.live := by
  have hlive : d.wal.live = Wal.encodeAll E.crc32c v.live := by rw [h.wal]; rfl
  have hstop : Wal.segmentRecords E.crc32c ((Wal.encode E.crc32c r).take c) = [] :=
    Wal.segmentRecords_of_stop _ (Wal.readRecord_torn _ hc)
  show Wal.segmentRecords E.crc32c (d.wal.live ++ (Wal.encode E.crc32c r).take c) = _
  rw [hlive, Wal.segmentRecords_encodeAll, hstop, ite_self, List.append_nil, Wal.segmentRecords_eq]
  rfl

theorem WholeLog.allRecords_torn (h : WholeLog E d v) (hc : c < (Wal.encode E.crc32c r).length) :
    Wal.allRecords E (d.torn E r c).wal = Wal.allRecords E d.wal := by
  rw [Wal.allRecords_eq, Wal.allRecords_eq, h.segmentRecords_torn hc]
  rfl

theorem WholeLog.recovered_torn (h : WholeLog E d v) (hc : c < (Wal.encode E.crc32c r).length) :
    recovered E (d.torn E r c) = recovered E d := by
  have hall := h.allRecords_torn hc
  show (Engine.loadTables d).1.replayWal E (d.torn E r c) = (Engine.loadTables d).1.replayWal E d
  unfold Engine.replayWal Wal.replay Wal.maxSeq
  rw [hall]

theorem WholeLog.construct_torn (h : WholeLog E d v) (hc : c < (Wal.encode E.crc32c r).length) :
    Engine.construct E (d.torn E r c) = Engine.construct E d := by
  show ((recovered E (d.torn E r c)).recoverFlush.1, (Engine.loadTables d).2 ++
    (recovered E (d.torn E r c)).recoverFlush.2) = _
  rw [h.recovered_torn hc]
  rfl

theorem WholeLog.constructSafe_torn (h : WholeLog E d v) (hc : c < (Wal.encode E.crc32c r).length)
    (hs : ConstructSafe E (d.torn E r c)) : ConstructSafe E d := by
  obtain ⟨ho, hcomp⟩ := hs
  refine ⟨?_, ?_⟩
  · unfold Wal.InOrder Wal.deliveredAbove at ho ⊢
    rwa [h.segmentRecords_torn hc] at ho
  · rw [h.recovered_torn hc] at hcomp
    exact hcomp

/-! ### Opening the torn directory -/

/-- A recovery that has replayed a record cuts the log, torn bytes and all. -/
theorem WholeLog.applyAll_torn (h : WholeLog E d v) (hm : (recovered E d).activeMemtable.isEmpty = false) :
    (d.torn E r c).applyAll E (Engine.construct E d).2 = d.applyAll E (Engine.construct E d).2 := by
  have himm : (recovered E d).immutableMemtable = none := by
    show (Engine.loadTables d).1.immutableMemtable = none
    rw [h.stored.loadTables_fst]
  show (d.torn E r c).applyAll E ((Engine.loadTables d).2 ++ (recovered E d).recoverFlush.2) =
    d.applyAll E ((Engine.loadTables d).2 ++ (recovered E d).recoverFlush.2)
  rw [Engine.recoverFlush_eq himm hm]
  rcases h.stored with ⟨hman, hf⟩ | ⟨m, hman, -⟩
  · rw [loadTables_fresh hman hf]
    rfl
  · rw [loadTables_some hman]
    rfl

/-- With a record to replay, the torn directory opens as the whole one. -/
theorem WholeLog.step_construct_torn (h : WholeLog E d v) (hc : c < (Wal.encode E.crc32c r).length)
    (hs : ConstructSafe E d) (hu : v.unflushed d.recorded.checkpointSeq ≠ [] ∨ c = 0) :
    (Process.stopped (d.torn E r c)).step E .construct = (Process.stopped d).step E .construct := by
  rcases hu with hu | rfl
  · have hrec : (recovered E d).activeMemtable.isEmpty = false := by
      rw [Bool.eq_false_iff]
      exact fun hm => hu (h.keeps.unflushed_of_isEmpty h.stored hs.1 hm)
    show Process.running (Engine.construct E (d.torn E r c)).1
      ((d.torn E r c).applyAll E (Engine.construct E (d.torn E r c)).2) = _
    rw [h.construct_torn hc, h.applyAll_torn hrec]
    rfl
  · have hd : d.torn E r 0 = d := by simp [Disk.torn]
    rw [hd]

end Torn

/-- **A torn tail does not harm later writes** when a record above the
checkpoint stands before it, or no byte of it was written: an engine opened on
the torn directory, run by safe steps to a stop and opened again, answers every
acknowledged put and every whole record of the log, unless overwritten. -/
theorem WholeLog.acked_recovered {E : Env} {d : Disk} {v : View} {r : WalRecord} {c : ℕ} (hl : WholeLog E d v)
    (hc : c < (Wal.encode E.crc32c r).length) (hu : v.unflushed d.recorded.checkpointSeq ≠ [] ∨ c = 0)
    (evs : List Event)
    (h : Along (Process.step E) (Event.Safe E) (.stopped (d.torn E r c)) (.construct :: evs)) (d' : Disk)
    (hd : run (Process.step E) (.stopped (d.torn E r c)) (.construct :: evs) = .stopped d')
    (ho : ConstructSafe E d') (hr : RecoverySafe E d') (k : Key) (x : Bytes)
    (hk : acked E (.stopped (d.torn E r c)) (d.kept v) (.construct :: evs) k = some x) (hx : x ≠ []) :
    (Engine.construct E d').1.get k = some x := by
  have hs : ConstructSafe E d := hl.constructSafe_torn hc h.1
  have hopen := hl.step_construct_torn hc hs hu
  have hkeep : (Process.stopped d).Keep E (d.kept v) := ⟨hl.stored, v, hl.keeps⟩
  have hopened : ((Process.stopped d).step E .construct).Keep E (d.kept v) := Process.Keep.step hkeep hs
  have hrun := h.2
  have hend : run (Process.step E) ((Process.stopped (d.torn E r c)).step E .construct) evs = .stopped d' := hd
  rw [hopen] at hrun hend
  have hfinal := Process.keep_run hopened hrun
  rw [hend] at hfinal
  obtain ⟨hstored, v', hv'⟩ := hfinal
  have hacked : acked E ((Process.stopped (d.torn E r c)).step E .construct) (d.kept v) evs k = some x := hk
  rw [hopen] at hacked
  exact hv'.get_construct hstored ho.1 hr hacked hx

end Lsm
end Amind
