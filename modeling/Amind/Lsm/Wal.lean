/-
# The write-ahead log's segment files

The log is a directory of segment files: `wal.log`, which `writeRecord`
appends to, and the segments it was rotated into, each named by the second of
its rotation. A segment that reaches the size limit is rotated at the end of
the write that filled it: `wal.log` is renamed to the segment of the current
second (over the one that is there), a new `wal.log` is started, and every
segment older than the age limit is deleted. Ages are 64-bit differences, so
a segment named later than the clock reads is very old.

`replay` delivers the records of all segments above a sequence number, the
segments in the order of their names' timestamps, `wal.log` counting as
timestamp 0.
-/
import Mathlib.Data.List.Sort
import Amind.Lib.Run
import Amind.Lsm.WalCodec

namespace Amind
namespace Lsm
namespace Wal

/-- The CRC the log calls and the limits it was opened with. -/
structure Env where
  crc32c : Bytes → UInt32
  maxSegmentSize : ℕ
  maxSegmentAge : ℕ

/-- The limits the storage engine opens its log with: 32 MB and 7 days. -/
def Env.ofCrc (crc : Bytes → UInt32) : Env := ⟨crc, 32 * 1024 * 1024, 7 * 24 * 3600⟩

/-- The segment files. A `wal.log` that does not exist yet is an empty one. -/
structure WalDir where
  live : Bytes
  segments : List (UInt64 × Bytes)
  deriving DecidableEq, Repr

/-- No record logged. -/
def WalDir.empty : WalDir := ⟨[], []⟩

/-- What the clock reads (in seconds) when a segment is rotated, and then
when old segments are expired. -/
structure Clock where
  rotated : UInt64
  expired : UInt64
  deriving DecidableEq, Repr

section Dir

variable (E : Env)

/-- Delete the segments past their age. -/
def expireOldSegments (w : WalDir) (now : UInt64) : WalDir :=
  { w with segments := w.segments.filter fun s => ¬ E.maxSegmentAge < (now - s.1).toNat }

/-- Rename `wal.log` to the segment of this second and start a new one. -/
def rotate (w : WalDir) (clk : Clock) : WalDir :=
  expireOldSegments E
    { live := [], segments := (w.segments.filter fun s => s.1 ≠ clk.rotated) ++ [(clk.rotated, w.live)] }
    clk.expired

/-- Append a record, and rotate if the segment is full. -/
def writeRecord (w : WalDir) (r : WalRecord) (clk : Clock) : WalDir :=
  let w' : WalDir := { w with live := w.live ++ encode E.crc32c r }
  if E.maxSegmentSize ≤ w'.live.length then rotate E w' clk else w'

def appendPut (w : WalDir) (seq : UInt64) (key : Key) (data : Bytes) (clk : Clock) : WalDir :=
  writeRecord E w (putRecord seq key data) clk

def appendDelete (w : WalDir) (seq : UInt64) (key : Key) (clk : Clock) : WalDir :=
  writeRecord E w (deleteRecord seq key) clk

/-- Empty `wal.log`. The rotated segments stay. -/
def truncate (w : WalDir) : WalDir := { w with live := [] }

/-- All segments, in the order they are replayed. -/
def segmentFiles (w : WalDir) : List (UInt64 × Bytes) :=
  ((0, w.live) :: w.segments).insertionSort fun a b => a.1 ≤ b.1

/-- Every record the segments deliver, in replay order. -/
def allRecords (w : WalDir) : List WalRecord :=
  (segmentFiles w).flatMap fun s => segmentRecords E.crc32c s.2

/-- The records the replay hands on: those above `minSeq`. -/
def replay (w : WalDir) (minSeq : UInt64) : List WalRecord :=
  (allRecords E w).filter fun r => minSeq < r.seq

/-- The highest sequence number the replay met. -/
def maxSeq (w : WalDir) : UInt64 := (allRecords E w).foldl (fun m r => if m < r.seq then r.seq else m) 0

/-- The value a record leaves for its key. -/
def WalRecord.value (r : WalRecord) : Bytes :=
  match r.type with
  | .put => r.data
  | .delete => []

/-- The memtable the replayed records build. -/
def rebuild (rs : List WalRecord) : MemTable := rs.foldl (fun m r => m.putRaw r.key r.value) SkipList.empty

/-! ### Runs -/

/-- The operations on the log. -/
inductive WalOp
  | appendPut (seq : UInt64) (key : Key) (data : Bytes) (clk : Clock)
  | appendDelete (seq : UInt64) (key : Key) (clk : Clock)
  | rotate (clk : Clock)
  | expireOldSegments (now : UInt64)
  deriving DecidableEq, Repr

/-- The record an operation appends. -/
def WalOp.record : WalOp → Option WalRecord
  | .appendPut seq key data _ => some (putRecord seq key data)
  | .appendDelete seq key _ => some (deleteRecord seq key)
  | _ => none

/-- One operation. -/
def step (w : WalDir) : WalOp → WalDir
  | .appendPut seq key data clk => appendPut E w seq key data clk
  | .appendDelete seq key clk => appendDelete E w seq key clk
  | .rotate clk => rotate E w clk
  | .expireOldSegments now => expireOldSegments E w now

/-- The records a run appends. -/
def appended (ops : List WalOp) : List WalRecord := ops.filterMap WalOp.record

/-- The sequence numbers of a run's records ascend strictly. -/
def SeqAscend (ops : List WalOp) : Prop := (appended ops).Pairwise fun a b => a.seq < b.seq

/-- The clock of the rotation an operation makes, if it makes one. -/
def rotation (w : WalDir) : WalOp → Option Clock
  | .appendPut seq key data clk =>
    if E.maxSegmentSize ≤ (w.live ++ encode E.crc32c (putRecord seq key data)).length then some clk else none
  | .appendDelete seq key clk =>
    if E.maxSegmentSize ≤ (w.live ++ encode E.crc32c (deleteRecord seq key)).length then some clk else none
  | .rotate clk => some clk
  | .expireOldSegments _ => none

/-- A rotation comes at a later second than the rotations of the segments
that are there. -/
def RotatesLater (w : WalDir) (op : WalOp) : Prop :=
  ∀ clk ∈ rotation E w op, ∀ s ∈ w.segments, s.1 < clk.rotated

instance (w : WalDir) (op : WalOp) : Decidable (RotatesLater E w op) := by
  unfold RotatesLater
  infer_instance

end Dir

/-! ### Rebuilding the memtable -/

/-- The last of the records of a key. -/
def lastOf (rs : List WalRecord) (k : Key) : Option WalRecord := (rs.filter fun r => r.key = k).getLast?

theorem lastOf_concat (rs : List WalRecord) (r : WalRecord) (k : Key) :
    lastOf (rs ++ [r]) k = if r.key = k then some r else lastOf rs k := by
  unfold lastOf
  by_cases h : r.key = k <;> simp [List.filter_append, h]

theorem lastOf_mem {rs : List WalRecord} {k : Key} {r : WalRecord} (h : lastOf rs k = some r) :
    r ∈ rs ∧ r.key = k := by
  have := List.mem_of_getLast? h
  simpa using this

theorem lastOf_eq_none {rs : List WalRecord} {k : Key} : lastOf rs k = none ↔ ∀ r ∈ rs, r.key ≠ k := by
  simp [lastOf]

/-- The memtable holds the last record of every key. -/
theorem node_rebuild (rs : List WalRecord) (k : Key) :
    (rebuild rs).node k = (lastOf rs k).map fun r => ⟨k, r.value, false⟩ := by
  induction rs using List.reverseRecOn with
  | nil => rfl
  | append_singleton rs r ih =>
    have h : rebuild (rs ++ [r]) = (rebuild rs).putRaw r.key r.value := by simp [rebuild]
    rw [h, lastOf_concat, MemTable.putRaw, SkipList.node_put, ih]
    split
    · rename_i hk; subst hk; rfl
    · rfl

/-- In a list of ascending sequence numbers the last record of a key has the
highest. -/
theorem lastOf_of_highest : ∀ {rs : List WalRecord}, rs.Pairwise (fun a b => a.seq < b.seq) →
    ∀ {r : WalRecord}, r ∈ rs → (∀ r' ∈ rs, r'.key = r.key → r'.seq ≤ r.seq) →
    lastOf rs r.key = some r := by
  intro rs hs r hr hmax
  cases hl : lastOf rs r.key with
  | none => exact absurd rfl (lastOf_eq_none.mp hl r hr)
  | some r' =>
    obtain ⟨hm, hk⟩ := lastOf_mem hl
    by_contra hne
    have hne' : r ≠ r' := fun h => hne (by rw [h])
    have hle := hmax r' hm hk
    -- `r` comes after `r'` among the records of the key, so `r'` is not the last
    have hsub : (rs.filter fun x => x.key = r.key).Pairwise fun a b => a.seq < b.seq := hs.filter _
    obtain ⟨l, hl'⟩ := List.getLast?_eq_some_iff.mp hl
    rw [hl'] at hsub
    have hmem : r ∈ l ++ [r'] := by rw [← hl']; simp [hr]
    rcases List.mem_append.mp hmem with h | h
    · have := (List.pairwise_append.mp hsub).2.2 r h r' (by simp)
      exact absurd hle (not_le.mpr this)
    · exact hne' (by simpa using h)

end Wal
end Lsm
end Amind
