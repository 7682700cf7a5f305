/-
# The records in the segment files

`View` is the directory with the records of each segment in place of its
bytes. The log's operations are the same on views and on files (`files_step`),
so what happens to records can be followed without the encoding: a write adds
one at the end, a rotation moves those of `wal.log` behind the other segments
and may lose those of a segment it overwrites or expires.

`unflushed` are the records above the checkpoint, oldest first. An operation
that spares them (`Spares`) keeps every one of them, in order
(`unflushed_step`).
-/
import Mathlib.Data.List.Flatten
import Amind.Lsm.Wal

namespace Amind
namespace Lsm
namespace Wal

/-- The records of the segment files. -/
structure View where
  live : List WalRecord
  segments : List (UInt64 × List WalRecord)

namespace View

/-- The files of the view. -/
def files (crc : Bytes → UInt32) (v : View) : WalDir :=
  ⟨encodeAll crc v.live, v.segments.map fun s => (s.1, encodeAll crc s.2)⟩

/-- The records of the rotated segments. -/
def rotated (v : View) : List WalRecord := v.segments.flatMap fun s => s.2

/-- All records, `wal.log` last. -/
def records (v : View) : List WalRecord := v.rotated ++ v.live

/-- No record logged. -/
def empty : View := ⟨[], []⟩

section Operations

variable (E : Env)

def expireOldSegments (v : View) (now : UInt64) : View :=
  { v with segments := v.segments.filter fun s => ¬ E.maxSegmentAge < (now - s.1).toNat }

/-- The rotation before it expires segments. -/
def rename (v : View) (second : UInt64) : View :=
  { live := [], segments := (v.segments.filter fun s => s.1 ≠ second) ++ [(second, v.live)] }

def rotate (v : View) (clk : Clock) : View := (v.rename clk.rotated).expireOldSegments E clk.expired

/-- The record at the end of `wal.log`. -/
def append (v : View) (r : WalRecord) : View := { v with live := v.live ++ [r] }

/-- `wal.log` has reached the size limit. -/
def Full (v : View) : Prop := E.maxSegmentSize ≤ (encodeAll E.crc32c v.live).length

instance (v : View) : Decidable (v.Full E) := by unfold Full; infer_instance

def writeRecord (v : View) (r : WalRecord) (clk : Clock) : View :=
  if (v.append r).Full E then (v.append r).rotate E clk else v.append r

def truncate (v : View) : View := { v with live := [] }

def step (v : View) : WalOp → View
  | .appendPut seq key data clk => v.writeRecord E (putRecord seq key data) clk
  | .appendDelete seq key clk => v.writeRecord E (deleteRecord seq key) clk
  | .rotate clk => v.rotate E clk
  | .expireOldSegments now => v.expireOldSegments E now

end Operations

/-! ### The files follow the records -/

variable {E : Env}

theorem files_expire (v : View) (now : UInt64) :
    (v.expireOldSegments E now).files E.crc32c = Wal.expireOldSegments E (v.files E.crc32c) now := by
  simp only [expireOldSegments, Wal.expireOldSegments, files, List.filter_map, Function.comp_def]

theorem files_rotate (v : View) (clk : Clock) :
    (v.rotate E clk).files E.crc32c = Wal.rotate E (v.files E.crc32c) clk := by
  unfold rotate Wal.rotate
  rw [files_expire]
  congr 1
  simp [files, rename, encodeAll, List.filter_map, Function.comp_def]

theorem encodeAll_append (crc : Bytes → UInt32) (rs : List WalRecord) (r : WalRecord) :
    encodeAll crc (rs ++ [r]) = encodeAll crc rs ++ encode crc r := by
  simp [encodeAll]

theorem files_append (v : View) (r : WalRecord) :
    (v.append r).files E.crc32c =
      { v.files E.crc32c with live := (v.files E.crc32c).live ++ encode E.crc32c r } := by
  simp [append, files, encodeAll_append]

theorem files_writeRecord (v : View) (r : WalRecord) (clk : Clock) :
    (v.writeRecord E r clk).files E.crc32c = Wal.writeRecord E (v.files E.crc32c) r clk := by
  have hfull : (v.append r).Full E ↔
      E.maxSegmentSize ≤ ((v.files E.crc32c).live ++ encode E.crc32c r).length := by
    simp only [Full, append, files, encodeAll_append]
  unfold writeRecord Wal.writeRecord
  simp only
  by_cases h : (v.append r).Full E
  · rw [if_pos h, if_pos (hfull.mp h), files_rotate, files_append]
  · rw [if_neg h, if_neg fun h' => h (hfull.mpr h'), files_append]

theorem files_truncate (v : View) : v.truncate.files E.crc32c = Wal.truncate (v.files E.crc32c) := rfl

/-- An operation does to the files what it does to the records. -/
theorem files_step (v : View) (op : WalOp) :
    (v.step E op).files E.crc32c = Wal.step E (v.files E.crc32c) op := by
  cases op with
  | appendPut seq key data clk => exact files_writeRecord v _ clk
  | appendDelete seq key clk => exact files_writeRecord v _ clk
  | rotate clk => exact files_rotate v clk
  | expireOldSegments now => exact files_expire v now

theorem files_run (ops : List WalOp) : ∀ v : View,
    (Run.run (step E) v ops).files E.crc32c = Run.run (Wal.step E) (v.files E.crc32c) ops := by
  induction ops with
  | nil => intro v; rfl
  | cons op ops ih =>
    intro v
    rw [Run.run_cons, Run.run_cons, ih, files_step]

/-! ### Records above a checkpoint -/

/-- The records above the checkpoint, oldest first. -/
def unflushed (ckpt : UInt64) (v : View) : List WalRecord := v.records.filter fun r => ckpt < r.seq

/-- No record of the segment is above the checkpoint. -/
def Flushed (ckpt : UInt64) (s : UInt64 × List WalRecord) : Prop := ∀ r ∈ s.2, r.seq ≤ ckpt

/-- Expiring segments at `now` deletes flushed ones only. -/
def SparesExpire (E : Env) (ckpt : UInt64) (v : View) (now : UInt64) : Prop :=
  ∀ s ∈ v.segments, E.maxSegmentAge < (now - s.1).toNat → Flushed ckpt s

/-- A rotation overwrites and deletes flushed segments only. -/
def SparesRotate (E : Env) (ckpt : UInt64) (v : View) (clk : Clock) : Prop :=
  (∀ s ∈ v.segments, s.1 = clk.rotated → Flushed ckpt s) ∧
    SparesExpire E ckpt (v.rename clk.rotated) clk.expired

/-- A write, if it rotates, spares the unflushed records. -/
def SparesWrite (E : Env) (ckpt : UInt64) (v : View) (r : WalRecord) (clk : Clock) : Prop :=
  (v.append r).Full E → SparesRotate E ckpt (v.append r) clk

/-- The operation overwrites and deletes flushed segments only. -/
def Spares (E : Env) (ckpt : UInt64) (v : View) : WalOp → Prop
  | .appendPut seq key data clk => SparesWrite E ckpt v (putRecord seq key data) clk
  | .appendDelete seq key clk => SparesWrite E ckpt v (deleteRecord seq key) clk
  | .rotate clk => SparesRotate E ckpt v clk
  | .expireOldSegments now => SparesExpire E ckpt v now

instance (E : Env) (ckpt : UInt64) (v : View) (now : UInt64) : Decidable (SparesExpire E ckpt v now) := by
  unfold SparesExpire Flushed
  infer_instance

instance (E : Env) (ckpt : UInt64) (v : View) (clk : Clock) : Decidable (SparesRotate E ckpt v clk) := by
  unfold SparesRotate Flushed
  infer_instance

instance (E : Env) (ckpt : UInt64) (v : View) (r : WalRecord) (clk : Clock) :
    Decidable (SparesWrite E ckpt v r clk) := by
  unfold SparesWrite
  infer_instance

instance (E : Env) (ckpt : UInt64) (v : View) : ∀ op, Decidable (Spares E ckpt v op)
  | .appendPut seq key data clk => inferInstanceAs (Decidable (SparesWrite E ckpt v (putRecord seq key data) clk))
  | .appendDelete seq key clk => inferInstanceAs (Decidable (SparesWrite E ckpt v (deleteRecord seq key) clk))
  | .rotate clk => inferInstanceAs (Decidable (SparesRotate E ckpt v clk))
  | .expireOldSegments now => inferInstanceAs (Decidable (SparesExpire E ckpt v now))

/-- Dropping flushed segments drops no unflushed record. -/
theorem filter_segments (ckpt : UInt64) (p : UInt64 × List WalRecord → Bool) :
    ∀ {ss : List (UInt64 × List WalRecord)}, (∀ s ∈ ss, p s = false → Flushed ckpt s) →
    ((ss.filter p).flatMap fun s => s.2).filter (fun r => ckpt < r.seq) =
      (ss.flatMap fun s => s.2).filter fun r => ckpt < r.seq
  | [], _ => rfl
  | s :: ss, h => by
    have ih := filter_segments ckpt p fun s' hs' => h s' (List.mem_cons_of_mem _ hs')
    rw [List.flatMap_cons, List.filter_append, ← ih, List.filter_cons]
    by_cases hp : p s = true
    · rw [if_pos hp, List.flatMap_cons, List.filter_append]
    · rw [if_neg hp]
      have hs : s.2.filter (fun r => ckpt < r.seq) = [] := by
        refine List.filter_eq_nil_iff.mpr fun r hr => ?_
        simpa using h s List.mem_cons_self (by simpa using hp) r hr
      rw [hs, List.nil_append]

theorem unflushed_expire {ckpt : UInt64} {v : View} {now : UInt64} (h : SparesExpire E ckpt v now) :
    unflushed ckpt (v.expireOldSegments E now) = unflushed ckpt v := by
  unfold unflushed records rotated expireOldSegments
  rw [List.filter_append, List.filter_append]
  congr 1
  refine filter_segments ckpt _ fun s hs hp => h s hs ?_
  simpa using hp

theorem unflushed_rename {ckpt : UInt64} {v : View} {second : UInt64}
    (h : ∀ s ∈ v.segments, s.1 = second → Flushed ckpt s) :
    unflushed ckpt (v.rename second) = unflushed ckpt v := by
  have hf : ((v.segments.filter fun s => s.1 ≠ second).flatMap fun s => s.2).filter (fun r => ckpt < r.seq) =
      (v.segments.flatMap fun s => s.2).filter fun r => ckpt < r.seq :=
    filter_segments ckpt _ fun s hs hp => h s hs (by simpa using hp)
  unfold unflushed records rotated rename
  simp only [List.flatMap_append, List.filter_append, hf]
  simp

theorem unflushed_rotate {ckpt : UInt64} {v : View} {clk : Clock} (h : SparesRotate E ckpt v clk) :
    unflushed ckpt (v.rotate E clk) = unflushed ckpt v := by
  unfold rotate
  rw [unflushed_expire h.2, unflushed_rename h.1]

theorem unflushed_append (ckpt : UInt64) (v : View) (r : WalRecord) :
    unflushed ckpt (v.append r) = unflushed ckpt v ++ [r].filter fun r => ckpt < r.seq := by
  simp only [unflushed, records, rotated, append, List.filter_append, List.append_assoc]

theorem unflushed_writeRecord {ckpt : UInt64} {v : View} {r : WalRecord} {clk : Clock}
    (h : SparesWrite E ckpt v r clk) :
    unflushed ckpt (v.writeRecord E r clk) = unflushed ckpt v ++ [r].filter fun r => ckpt < r.seq := by
  unfold writeRecord
  split
  · rename_i hfull
    rw [unflushed_rotate (h hfull), unflushed_append]
  · exact unflushed_append ckpt v r

/-- An operation that spares the unflushed records keeps them, in order, and
adds the one it appends. -/
theorem unflushed_step {ckpt : UInt64} {v : View} {op : WalOp} (h : Spares E ckpt v op) :
    unflushed ckpt (v.step E op) = unflushed ckpt v ++ op.record.toList.filter fun r => ckpt < r.seq := by
  cases op with
  | appendPut seq key data clk => exact unflushed_writeRecord h
  | appendDelete seq key clk => exact unflushed_writeRecord h
  | rotate clk =>
    show unflushed ckpt (v.rotate E clk) = _
    rw [unflushed_rotate h]
    simp [WalOp.record]
  | expireOldSegments now =>
    show unflushed ckpt (v.expireOldSegments E now) = _
    rw [unflushed_expire h]
    simp [WalOp.record]

end View

theorem appended_concat (ops : List WalOp) (op : WalOp) :
    appended (ops ++ [op]) = appended ops ++ op.record.toList := by
  unfold appended
  rw [List.filterMap_append]
  cases h : op.record <;> simp [h]

namespace View

/-! ### Records keep their order -/

theorem records_expire_sublist (v : View) (now : UInt64) :
    (v.expireOldSegments E now).records.Sublist v.records :=
  List.Sublist.append_right (List.filter_sublist.flatMap _) _

theorem records_rotate_sublist (v : View) (clk : Clock) : (v.rotate E clk).records.Sublist v.records := by
  refine (records_expire_sublist _ _).trans ?_
  have h : ((v.segments.filter fun s => s.1 ≠ clk.rotated).flatMap fun s => s.2).Sublist v.rotated :=
    List.filter_sublist.flatMap _
  simpa [records, rotated, rename] using h.append_right v.live

theorem records_writeRecord_sublist (v : View) (r : WalRecord) (clk : Clock) :
    (v.writeRecord E r clk).records.Sublist (v.records ++ [r]) := by
  have happ : (v.append r).records = v.records ++ [r] := by simp [records, rotated, append]
  unfold writeRecord
  split
  · exact happ ▸ records_rotate_sublist _ clk
  · exact happ ▸ List.Sublist.refl _

theorem records_truncate_subset (v : View) : ∀ r ∈ v.truncate.records, r ∈ v.records := by
  intro r hr
  refine List.mem_append_left _ ?_
  simpa [records, truncate, rotated] using hr

/-- An operation keeps the order and adds its record at the end. -/
theorem records_step_sublist (v : View) (op : WalOp) :
    (v.step E op).records.Sublist (v.records ++ op.record.toList) := by
  cases op with
  | appendPut seq key data clk => exact records_writeRecord_sublist v _ clk
  | appendDelete seq key clk => exact records_writeRecord_sublist v _ clk
  | rotate clk => simpa [WalOp.record, step] using records_rotate_sublist (E := E) v clk
  | expireOldSegments now => simpa [WalOp.record, step] using records_expire_sublist (E := E) v now

/-! ### Segments in the order of their rotation -/

/-- Every segment was rotated later than those before it. -/
def Ordered (v : View) : Prop := v.segments.Pairwise fun a b => a.1 < b.1

theorem ordered_expire {v : View} (h : v.Ordered) (now : UInt64) : (v.expireOldSegments E now).Ordered :=
  h.filter _

theorem ordered_rotate {v : View} (h : v.Ordered) {clk : Clock} (hl : ∀ s ∈ v.segments, s.1 < clk.rotated) :
    (v.rotate E clk).Ordered := by
  refine ordered_expire ?_ clk.expired
  refine List.pairwise_append.mpr ⟨h.filter _, by simp, fun a ha b hb => ?_⟩
  rw [List.mem_singleton.mp hb]
  exact hl a (List.mem_filter.mp ha).1

/-- A write that rotates does so later than the segments there. -/
def LaterWrite (E : Env) (v : View) (r : WalRecord) (clk : Clock) : Prop :=
  (v.append r).Full E → ∀ s ∈ v.segments, s.1 < clk.rotated

theorem ordered_writeRecord {v : View} (h : v.Ordered) {r : WalRecord} {clk : Clock}
    (hl : LaterWrite E v r clk) : (v.writeRecord E r clk).Ordered := by
  unfold writeRecord
  split
  · rename_i hfull
    exact ordered_rotate (v := v.append r) h (hl hfull)
  · exact h

end View

/-! ### What the segments deliver -/

/-- What a segment of these records delivers. -/
def delivered (rs : List WalRecord) : List WalRecord := (rs.takeWhile (·.Readable)).map WalRecord.stored

theorem segmentRecords_eq (crc : Bytes → UInt32) (rs : List WalRecord) :
    segmentRecords crc (encodeAll crc rs) = delivered rs := by
  have h := segmentRecords_encodeAll crc [] rs
  rw [List.append_nil] at h
  rw [h]
  simp [delivered, segmentRecords, readRecords]

theorem mem_delivered {rs : List WalRecord} {r : WalRecord} (h : r ∈ delivered rs) :
    ∃ r₀ ∈ rs, r = r₀.stored := by
  obtain ⟨r₀, h₀, rfl⟩ := List.mem_map.mp h
  exact ⟨r₀, (List.takeWhile_sublist _).subset h₀, rfl⟩

/-- What the rotated segments deliver, in their order. -/
def View.deliveredRotated (v : View) : List WalRecord := v.segments.flatMap fun s => delivered s.2

theorem mem_deliveredRotated {v : View} {r : WalRecord} (h : r ∈ v.deliveredRotated) :
    ∃ r₀ ∈ v.rotated, r = r₀.stored := by
  obtain ⟨s, hs, hr⟩ := List.mem_flatMap.mp h
  obtain ⟨r₀, h₀, rfl⟩ := mem_delivered hr
  exact ⟨r₀, List.mem_flatMap.mpr ⟨s, hs, h₀⟩, rfl⟩

/-- The replay takes `wal.log` first. -/
theorem allRecords_eq (E : Env) (w : WalDir) :
    allRecords E w = segmentRecords E.crc32c w.live ++
      (w.segments.insertionSort fun a b => a.1 ≤ b.1).flatMap fun s => segmentRecords E.crc32c s.2 := by
  have hsort : segmentFiles w = (0, w.live) :: w.segments.insertionSort fun a b => a.1 ≤ b.1 :=
    List.insertionSort_cons_of_forall_rel _ fun s _ => by simp
  unfold allRecords
  rw [hsort, List.flatMap_cons]

/-- The rotated segments are replayed after `wal.log` in their order. -/
theorem View.allRecords_files {E : Env} {v : View} (h : v.Ordered) :
    allRecords E (v.files E.crc32c) = delivered v.live ++ v.deliveredRotated := by
  have hsort : ((v.files E.crc32c).segments.insertionSort fun a b => a.1 ≤ b.1) = (v.files E.crc32c).segments :=
    List.Pairwise.insertionSort_eq (List.pairwise_map.mpr (h.imp fun hab => hab.le))
  rw [allRecords_eq, hsort]
  simp [View.files, View.deliveredRotated, segmentRecords_eq, List.flatMap_map]

/-! ### What the replay can deliver -/

theorem View.mem_allRecords {E : Env} {v : View} {r : WalRecord} :
    r ∈ allRecords E (v.files E.crc32c) ↔ r ∈ delivered v.live ∨ ∃ s ∈ v.segments, r ∈ delivered s.2 := by
  simp only [allRecords, segmentFiles, List.mem_flatMap, List.mem_insertionSort, List.mem_cons, View.files,
    List.mem_map]
  constructor
  · rintro ⟨s, rfl | ⟨s', hs', rfl⟩, hr⟩
    · exact Or.inl (by rwa [segmentRecords_eq] at hr)
    · exact Or.inr ⟨s', hs', by rwa [segmentRecords_eq] at hr⟩
  · rintro (hr | ⟨s, hs, hr⟩)
    · exact ⟨_, Or.inl rfl, by rwa [segmentRecords_eq]⟩
    · exact ⟨_, Or.inr ⟨s, hs, rfl⟩, by rwa [segmentRecords_eq]⟩

theorem mem_delivered_concat {rs : List WalRecord} {r r' : WalRecord} (h : r' ∈ delivered (rs ++ [r])) :
    r' ∈ delivered rs ∨ r' = r.stored := by
  obtain ⟨r₀, h₀, rfl⟩ := List.mem_map.mp h
  rw [List.takeWhile_append] at h₀
  split at h₀
  · rename_i hall
    rcases List.mem_append.mp h₀ with h₀ | h₀
    · refine Or.inl (List.mem_map.mpr ⟨r₀, ?_, rfl⟩)
      rwa [(List.takeWhile_prefix _).eq_of_length hall]
    · have := (List.takeWhile_sublist _).subset h₀
      exact Or.inr (by rw [List.mem_singleton.mp this])
  · exact Or.inl (List.mem_map.mpr ⟨r₀, h₀, rfl⟩)

namespace View

variable {E : Env} {v : View} {r : WalRecord}

theorem allRecords_expire {now : UInt64} (h : r ∈ allRecords E ((v.expireOldSegments E now).files E.crc32c)) :
    r ∈ allRecords E (v.files E.crc32c) := by
  rw [mem_allRecords] at h ⊢
  exact h.imp id fun ⟨s, hs, hr⟩ => ⟨s, (List.mem_filter.mp hs).1, hr⟩

theorem allRecords_rotate {clk : Clock} (h : r ∈ allRecords E ((v.rotate E clk).files E.crc32c)) :
    r ∈ allRecords E (v.files E.crc32c) := by
  have h' := mem_allRecords.mp (allRecords_expire h)
  refine mem_allRecords.mpr ?_
  rcases h' with h' | ⟨s, hs, hr⟩
  · cases h'
  · rcases List.mem_append.mp hs with hs | hs
    · exact Or.inr ⟨s, (List.mem_filter.mp hs).1, hr⟩
    · rw [List.mem_singleton.mp hs] at hr
      exact Or.inl hr

theorem allRecords_append {r' : WalRecord} (h : r ∈ allRecords E ((v.append r').files E.crc32c)) :
    r ∈ allRecords E (v.files E.crc32c) ∨ r = r'.stored := by
  rcases mem_allRecords.mp h with h | h
  · exact (mem_delivered_concat h).imp (fun h => mem_allRecords.mpr (Or.inl h)) id
  · exact Or.inl (mem_allRecords.mpr (Or.inr h))

/-- A write delivers at most its own record more. -/
theorem allRecords_writeRecord {r' : WalRecord} {clk : Clock}
    (h : r ∈ allRecords E ((v.writeRecord E r' clk).files E.crc32c)) :
    r ∈ allRecords E (v.files E.crc32c) ∨ r = r'.stored := by
  unfold writeRecord at h
  split at h
  · exact allRecords_append (allRecords_rotate h)
  · exact allRecords_append h

theorem allRecords_truncate (h : r ∈ allRecords E (v.truncate.files E.crc32c)) :
    r ∈ allRecords E (v.files E.crc32c) := by
  refine mem_allRecords.mpr ?_
  rcases mem_allRecords.mp h with h | h
  · cases h
  · exact Or.inr h

end View

/-! ### The highest sequence number -/

theorem foldl_maxSeq (rs : List WalRecord) : ∀ m : UInt64,
    let s := rs.foldl (fun m r => if m < r.seq then r.seq else m) m
    m ≤ s ∧ (∀ r ∈ rs, r.seq ≤ s) ∧ (s = m ∨ ∃ r ∈ rs, s = r.seq) := by
  induction rs with
  | nil => exact fun m => ⟨le_rfl, by simp, Or.inl rfl⟩
  | cons r rs ih =>
    intro m
    obtain ⟨h₁, h₂, h₃⟩ := ih (if m < r.seq then r.seq else m)
    have hm : m ≤ (if m < r.seq then r.seq else m) ∧ r.seq ≤ (if m < r.seq then r.seq else m) := by
      split
      · rename_i hlt
        exact ⟨hlt.le, le_rfl⟩
      · rename_i hlt
        exact ⟨le_rfl, not_lt.mp hlt⟩
    refine ⟨hm.1.trans h₁, ?_, ?_⟩
    · intro x hx
      rcases List.mem_cons.mp hx with rfl | hx
      · exact hm.2.trans h₁
      · exact h₂ x hx
    · rcases h₃ with h₃ | ⟨x, hx, h₃⟩
      · by_cases hlt : m < r.seq
        · exact Or.inr ⟨r, List.mem_cons_self, by simpa [hlt] using h₃⟩
        · exact Or.inl (by simpa [hlt] using h₃)
      · exact Or.inr ⟨x, List.mem_cons_of_mem _ hx, h₃⟩

theorem seq_le_maxSeq {E : Env} {w : WalDir} {r : WalRecord} (h : r ∈ allRecords E w) : r.seq ≤ maxSeq E w :=
  (foldl_maxSeq (allRecords E w) 0).2.1 r h

/-- The highest sequence number met is 0 or that of a record. -/
theorem maxSeq_mem (E : Env) (w : WalDir) : maxSeq E w = 0 ∨ ∃ r ∈ allRecords E w, maxSeq E w = r.seq :=
  (foldl_maxSeq (allRecords E w) 0).2.2

end Wal
end Lsm
end Amind
