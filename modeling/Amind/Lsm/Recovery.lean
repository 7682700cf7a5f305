/-
# What survives a crash

`acked` are the writes a run has acknowledged: an operation whose record is in
the log counts, whether or not it returned. `Keeps` says that a directory
still has them: the last record of the key above the checkpoint, or else the
tables in the manifest's order, answer with the value that was put. Every
operation keeps this at every point it can be interrupted, the flush of the
full memtable included, which saves the manifest before it cuts the log. The
other flushes cut the log first: between the two the flushed records are in no
file the recovery reads (`tornFlush`).

`Process.acked_recovered` states it for runs of the process. The other conditions
on its steps (`Event.Safe`) keep out what loses or reorders versions by other
ways: the order of the replay, the retention of the log, and merges of L1 in
the order of the engine's list.
-/
import Amind.Lsm.WalOrder
import Amind.Lsm.Reopen

namespace Amind
namespace Lsm

open Run (run Along)
open Wal (Env View WalRecord WalDir Clock)

/-! ### Interrupted flushes -/

/-- The cut falls between the log being cut and the manifest being saved. -/
def tornFlush (w : List Effect) (n : ℕ) : Bool :=
  match w[n - 1]?, w[n]? with
  | some .walTruncated, some (.manifestSaved _) => true
  | _, _ => false

/-- `P` holds at every point of the effects that is not in a torn flush. -/
def SafeCuts (E : Env) (P : Disk → Prop) (d : Disk) (w : List Effect) : Prop :=
  ∀ n, tornFlush w n = false → P (d.applyAll E (w.take n))

section Cuts

variable {E : Env} {P : Disk → Prop} {d : Disk} {w w' : List Effect}

theorem tornFlush_length (w : List Effect) : tornFlush w w.length = false := by
  simp only [tornFlush, List.getElem?_length]
  split
  · rename_i h
    cases h
  · rfl

theorem tornFlush_append_left {n : ℕ} (h : n < w.length) : tornFlush (w ++ w') n = tornFlush w n := by
  unfold tornFlush
  rw [List.getElem?_append_left (by omega), List.getElem?_append_left h]

theorem tornFlush_append_right {n : ℕ} (h : w.length < n) : tornFlush (w ++ w') n = tornFlush w' (n - w.length) := by
  have hn : n - 1 - w.length = n - w.length - 1 := by omega
  unfold tornFlush
  rw [List.getElem?_append_right (by omega), List.getElem?_append_right h.le, hn]

theorem AtCuts.safe (h : AtCuts E P d w) : SafeCuts E P d w := fun n _ => h n

theorem SafeCuts.all (h : SafeCuts E P d w) : P (d.applyAll E w) := by
  have := h w.length (tornFlush_length w)
  rwa [List.take_length] at this

theorem SafeCuts.append (h : SafeCuts E P d w) (h' : SafeCuts E P (d.applyAll E w) w') :
    SafeCuts E P d (w ++ w') := by
  intro n hn
  rw [List.take_append, Disk.applyAll_append]
  rcases lt_trichotomy n w.length with hlt | rfl | hgt
  · rw [tornFlush_append_left hlt] at hn
    have hzero : n - w.length = 0 := by omega
    rw [hzero]
    exact h n hn
  · rw [Nat.sub_self]
    exact h w.length (tornFlush_length w)
  · rw [tornFlush_append_right hgt] at hn
    rw [List.take_of_length_le hgt.le]
    exact h' _ hn

/-- The flush that cuts the log first, but for the point between its two last
effects. -/
theorem safeCuts_truncateFirst {f : FileName} {t : SSTable} {m : Manifest} (h₀ : P d)
    (h₁ : P (d.apply E (.tableWritten f t)))
    (h₃ : P (d.applyAll E [.tableWritten f t, .walTruncated, .manifestSaved m])) :
    SafeCuts E P d [.tableWritten f t, .walTruncated, .manifestSaved m] := by
  intro n hn
  rcases n with _ | _ | _ | n
  · exact h₀
  · exact h₁
  · exact absurd hn (by simp [tornFlush])
  · simpa using h₃

end Cuts

/-! ### What a directory keeps -/

/-- What the listed tables hold for the key, in the manifest's order. -/
def Disk.hit (d : Disk) (m : Manifest) (k : Key) : Option Bytes :=
  (probe (d.load m.l0Files) k).or ((probe (d.load m.l1Files) k).or (probe (d.load m.l2Files) k))

/-- The log has the records of `v`, and for every key that `s` gives a value
the last unflushed record or else the tables have it. -/
structure Keeps (E : Env) (s : Key → Option Bytes) (m : Manifest) (d : Disk) (v : View) : Prop where
  wal : d.wal = v.files E.crc32c
  ordered : v.Ordered
  small : ∀ r ∈ v.records, r.Small
  keeps : ∀ k x, s k = some x → x ≠ [] → (replayHit (v.unflushed m.checkpointSeq) k).or (d.hit m k) = some x

theorem Disk.hit_congr {d d' : Disk} {m : Manifest} (h : ∀ f ∈ m.files, d'.read f = d.read f) (k : Key) :
    d'.hit m k = d.hit m k := by
  unfold Disk.hit
  rw [Disk.load_congr fun f hf => h f (by simp [Manifest.files, hf]),
    Disk.load_congr fun f hf => h f (by simp [Manifest.files, hf]),
    Disk.load_congr fun f hf => h f (by simp [Manifest.files, hf])]

theorem Keeps.congr {E : Env} {s : Key → Option Bytes} {m : Manifest} {d d' : Disk} {v : View}
    (h : Keeps E s m d v) (hl : Like m d d') : Keeps E s m d' v where
  wal := hl.wal.trans h.wal
  ordered := h.ordered
  small := h.small
  keeps := fun k x hk hx => by rw [Disk.hit_congr hl.read]; exact h.keeps k x hk hx

/-- A directory that keeps `s`. -/
def Disk.Keep (E : Env) (s : Key → Option Bytes) (d : Disk) : Prop := ∃ v, Keeps E s d.recorded d v

theorem Keeps.keep {E : Env} {s : Key → Option Bytes} {m : Manifest} {d : Disk} {v : View}
    (h : Keeps E s m d v) (hm : d.manifest = some m) : d.Keep E s :=
  ⟨v, by rw [Disk.recorded_eq hm]; exact h⟩

/-! ### A running engine -/

/-- The memtable has what the unflushed records put. -/
def Mirrors (m : MemTable) (rs : List WalRecord) : Prop :=
  ∀ k, match Wal.lastOf rs k with
    | none => m.node k = none
    | some r => r.type = .put → m.node k = some ⟨k, r.data, false⟩

/-- The engine and its directory keep `s`. -/
structure Serves (E : Env) (s : Key → Option Bytes) (e : Engine) (d : Disk) (v : View) : Prop where
  layout : Layout e d
  kept : Keeps E s e.manifest d v
  mirrors : Mirrors e.activeMemtable (v.unflushed e.manifest.checkpointSeq)
  seq : ∀ r ∈ v.records, r.seq ≤ e.sequenceNumber
  checkpoint : e.manifest.checkpointSeq ≤ e.sequenceNumber

section Serves

variable {E : Env} {s : Key → Option Bytes} {e : Engine} {d d' : Disk} {v v' : View}

theorem Serves.persists (h : Serves E s e d v) : Persists (Disk.Keep E s) e d :=
  fun _ hl => (h.kept.congr hl).keep hl.manifest

theorem Serves.keep (h : Serves E s e d v) : d.Keep E s := h.kept.keep h.layout.saved

/-! ### Flushes -/

theorem Layout.hit_eq (h : Layout e d) (k : Key) :
    d.hit e.manifest k = (probe e.l0Tables k).or
      ((probe (d.load e.manifest.l1Files) k).or (probe (d.load e.manifest.l2Files) k)) := by
  rw [Disk.hit, h.l0]

theorem Layout.hit_flushed (h : Layout e d)
    (hr : ∀ f, d'.read f = if f = e.newTable.name then some e.newTable.table else d.read f) (k : Key) :
    d'.hit e.flushed.manifest k = (e.newTable.table.get k).or (d.hit e.manifest k) := by
  have hnew : d'.read e.newTable.name = some e.newTable.table := by rw [hr, if_pos rfl]
  have hold : ∀ f ∈ e.manifest.files, d'.read f = d.read f := by
    intro f hf
    rw [hr, if_neg]
    rintro rfl
    exact h.listed.sst_fresh hf
  rw [← Disk.hit_congr hold]
  show (probe (d'.load (e.newTable.name :: e.manifest.l0Files)) k).or _ = _
  rw [Disk.load_cons hnew, probe_cons, Option.or_assoc]
  rfl

/-- The flushed table and the tables before it have what is kept. -/
theorem Serves.hit_newTable (h : Serves E s e d v) {k : Key} {x : Bytes} (hk : s k = some x) (hx : x ≠ []) :
    (e.newTable.table.get k).or (d.hit e.manifest k) = some x := by
  have hkeep := h.kept.keeps k x hk hx
  have hmir := h.mirrors k
  have hget : e.newTable.table.get k =
      (e.activeMemtable.node k).map fun n => if n.isTombstone then [] else n.value :=
    SSTable.get_ofMemTable e.activeMemtable k
  unfold replayHit at hkeep
  rw [hget]
  cases hl : Wal.lastOf (v.unflushed e.manifest.checkpointSeq) k with
  | none =>
    rw [hl] at hkeep hmir
    simp only at hmir
    rw [hmir]
    exact hkeep
  | some r =>
    rw [hl] at hkeep hmir
    have hval : r.value = x := by simpa using hkeep
    have hput : r.type = .put := by
      cases ht : r.type with
      | put => rfl
      | delete => exact absurd (by rw [← hval, WalRecord.value, ht]) hx
    have hdata : r.data = x := by rw [← hval, WalRecord.value, hput]
    rw [hmir hput, hdata]
    rfl

/-- Nothing is above the checkpoint of a flush. -/
theorem unflushed_seq {q : UInt64} (h : ∀ r ∈ v.records, r.seq ≤ q) : v.unflushed q = [] :=
  List.filter_eq_nil_iff.mpr fun r hr => by simpa using h r hr

theorem Serves.keeps_flushed (h : Serves E s e d v)
    (hr : ∀ f, d'.read f = if f = e.newTable.name then some e.newTable.table else d.read f)
    (hw : d'.wal = v'.files E.crc32c) (ho : v'.Ordered) (hsub : ∀ r ∈ v'.records, r ∈ v.records) :
    Keeps E s e.flushed.manifest d' v' := by
  have hnil : v'.unflushed e.flushed.manifest.checkpointSeq = [] :=
    unflushed_seq fun r hr => h.seq r (hsub r hr)
  refine ⟨hw, ho, fun r hr => h.kept.small r (hsub r hr), fun k x hk hx => ?_⟩
  rw [hnil, h.layout.hit_flushed hr]
  exact h.hit_newTable hk hx

theorem Serves.flushed (h : Serves E s e d v) (hm : d'.manifest = some e.flushed.manifest)
    (hr : ∀ f, d'.read f = if f = e.newTable.name then some e.newTable.table else d.read f)
    (hw : d'.wal = v'.files E.crc32c) (ho : v'.Ordered) (hsub : ∀ r ∈ v'.records, r ∈ v.records) :
    Serves E s e.flushed d' v' where
  layout := h.layout.flushed hm hr
  kept := h.keeps_flushed hr hw ho hsub
  mirrors := by
    have hnil : v'.unflushed e.flushed.manifest.checkpointSeq = [] :=
      unflushed_seq fun r hr => h.seq r (hsub r hr)
    rw [hnil]
    exact fun k => rfl
  seq := fun r hr => h.seq r (hsub r hr)
  checkpoint := le_rfl

/-- The flush that cuts the log first. -/
theorem Serves.truncateFirst (h : Serves E s e d v) :
    Serves E s e.flushed (d.applyAll E
      [.tableWritten e.newTable.name e.newTable.table, .walTruncated, .manifestSaved e.flushed.manifest])
      v.truncate ∧
    SafeCuts E (Disk.Keep E s) d
      [.tableWritten e.newTable.name e.newTable.table, .walTruncated, .manifestSaved e.flushed.manifest] := by
  have hw : Wal.truncate d.wal = v.truncate.files E.crc32c := by rw [h.kept.wal, View.files_truncate]
  have hf : Serves E s e.flushed (d.applyAll E [.tableWritten e.newTable.name e.newTable.table, .walTruncated,
      .manifestSaved e.flushed.manifest]) v.truncate :=
    h.flushed rfl (fun f => by simp) hw h.kept.ordered v.records_truncate_subset
  exact ⟨hf, safeCuts_truncateFirst h.keep (h.persists _ h.layout.like_newTable) hf.keep⟩

/-- The flush that saves the manifest first. -/
theorem Serves.saveFirst (h : Serves E s e d v) :
    Serves E s e.flushed (d.applyAll E
      [.tableWritten e.newTable.name e.newTable.table, .manifestSaved e.flushed.manifest, .walTruncated])
      v.truncate ∧
    AtCuts E (Disk.Keep E s) d
      [.tableWritten e.newTable.name e.newTable.table, .manifestSaved e.flushed.manifest, .walTruncated] := by
  have hw : Wal.truncate d.wal = v.truncate.files E.crc32c := by rw [h.kept.wal, View.files_truncate]
  have hf : Serves E s e.flushed (d.applyAll E [.tableWritten e.newTable.name e.newTable.table,
      .manifestSaved e.flushed.manifest, .walTruncated]) v.truncate :=
    h.flushed rfl (fun f => by simp) hw h.kept.ordered v.records_truncate_subset
  -- the manifest is saved and the log still whole
  have hmid : Keeps E s e.flushed.manifest (d.applyAll E [.tableWritten e.newTable.name e.newTable.table,
      .manifestSaved e.flushed.manifest]) v :=
    h.keeps_flushed (fun f => by simp) h.kept.wal h.kept.ordered fun r hr => hr
  refine ⟨hf, atCuts_cons h.keep (atCuts_cons (h.persists _ h.layout.like_newTable) (atCuts_cons ?_ (atCuts_nil ?_)))⟩
  · exact hmid.keep rfl
  · exact hf.keep

/-! ### Compactions -/

/-- A value found behind a deletion or nothing is found without them. -/
theorem live_or {a b : Option Bytes} {x : Bytes} (h : a.or b = some x) (hx : x ≠ []) :
    (Engine.live a).or b = some x := by
  rcases a with _ | y
  · exact h
  · have hy : y = x := by simpa using h
    rw [hy, Engine.live_some hx]
    rfl

theorem Layout.hit_mergeL0 (h : Layout e d) (k : Key) :
    (d.applyAll E (e.mergeLevel .l0).2).hit (e.afterMerge .l0).manifest k =
      (Engine.live (probe e.l0Tables k)).or
        ((probe (d.load e.manifest.l1Files) k).or (probe (d.load e.manifest.l2Files) k)) := by
  obtain ⟨hnew, hold⟩ := h.mergedDisk_read (E := E) .l0
  have hl0 : (e.afterMerge .l0).manifest.l0Files = [] :=
    foldl_erase_perm (by rw [Engine.sourceTables, h.l0_names])
  rw [Disk.hit_congr (like_after_mergeLevel (E := E) (d := d) h.oldNames_l0).read, Disk.hit, hl0]
  show (probe ((e.mergedDisk E .l0 d).load []) k).or
    ((probe ((e.mergedDisk E .l0 d).load ((e.merged .l0).name :: e.manifest.l1Files)) k).or
      (probe ((e.mergedDisk E .l0 d).load e.manifest.l2Files) k)) = _
  have h₁ : (e.mergedDisk E .l0 d).load e.manifest.l1Files = d.load e.manifest.l1Files :=
    Disk.load_congr fun f hf => hold f (by simp [Manifest.files, hf])
  have h₂ : (e.mergedDisk E .l0 d).load e.manifest.l2Files = d.load e.manifest.l2Files :=
    Disk.load_congr fun f hf => hold f (by simp [Manifest.files, hf])
  rw [Disk.load_cons hnew, h₁, h₂, probe_cons, get_merged, Option.or_assoc]
  rfl

theorem Layout.hit_mergeL1 (h : Layout e d) (hempty : e.l0Tables = []) (k : Key) :
    (d.applyAll E (e.mergeLevel .l1).2).hit (e.afterMerge .l1).manifest k =
      (Engine.live (probe e.l1Tables k)).or (probe (d.load e.manifest.l2Files) k) := by
  obtain ⟨hnew, hold⟩ := h.mergedDisk_read (E := E) .l1
  have hl0 : e.manifest.l0Files = [] := by rw [← h.l0_names, hempty]; rfl
  have hl1 : (e.afterMerge .l1).manifest.l1Files = [] := foldl_erase_perm h.l1_names
  rw [Disk.hit_congr (like_after_mergeLevel (E := E) (d := d) (h.oldNames_l1 hempty)).read, Disk.hit, hl1]
  show (probe ((e.mergedDisk E .l1 d).load e.manifest.l0Files) k).or
    ((probe ((e.mergedDisk E .l1 d).load []) k).or
      (probe ((e.mergedDisk E .l1 d).load ((e.merged .l1).name :: e.manifest.l2Files)) k)) = _
  have h₂ : (e.mergedDisk E .l1 d).load e.manifest.l2Files = d.load e.manifest.l2Files :=
    Disk.load_congr fun f hf => hold f (by simp [Manifest.files, hf])
  rw [hl0, Disk.load_cons hnew, h₂, probe_cons, get_merged]
  rfl

/-- Other tables with the same answers, writes and log. -/
theorem Serves.retable {e' : Engine} (h : Serves E s e d v) (hl : Layout e' d') (hs : e.SameWrites e')
    (hw : d'.wal = d.wal)
    (hhit : ∀ k x, x ≠ [] → d.hit e.manifest k = some x → d'.hit e'.manifest k = some x) :
    Serves E s e' d' v where
  layout := hl
  kept := by
    refine ⟨hw.trans h.kept.wal, h.kept.ordered, h.kept.small, fun k x hk hx => ?_⟩
    have hkeep := h.kept.keeps k x hk hx
    rw [hs.checkpoint]
    rcases hr : replayHit (v.unflushed e.manifest.checkpointSeq) k with _ | y
    · rw [hr] at hkeep
      exact hhit k x hx hkeep
    · rw [hr] at hkeep
      exact hkeep
  mirrors := by rw [hs.active, hs.checkpoint]; exact h.mirrors
  seq := by rw [hs.seq]; exact h.seq
  checkpoint := by rw [hs.checkpoint, hs.seq]; exact h.checkpoint

theorem Serves.mergeL0 (h : Serves E s e d v) :
    Serves E s (e.afterMerge .l0) (d.applyAll E (e.mergeLevel .l0).2) v :=
  h.retable h.layout.mergeLevel_l0 (e.sameWrites_afterMerge .l0) (Engine.wal_mergeLevel E e d .l0)
    fun k x hx hhit => by
      rw [h.layout.hit_eq] at hhit
      rw [h.layout.hit_mergeL0]
      exact live_or hhit hx

/-- The engine's list and the manifest rank the same version first in L1. -/
theorem Serves.mergeL1 (h : Serves E s e d v) (hempty : e.l0Tables = [])
    (hrank : ∀ k, probe e.l1Tables k = probe (d.load e.manifest.l1Files) k) :
    Serves E s (e.afterMerge .l1) (d.applyAll E (e.mergeLevel .l1).2) v :=
  h.retable (h.layout.mergeLevel_l1 hempty) (e.sameWrites_afterMerge .l1) (Engine.wal_mergeLevel E e d .l1)
    fun k x hx hhit => by
      rw [h.layout.hit_eq, hempty] at hhit
      rw [h.layout.hit_mergeL1 hempty, hrank]
      exact live_or hhit hx

/-- A compaction of L0 that also merges L1 finds in both orders, the engine's
and the manifest's, the same version of every key first. -/
def CascadeSafe (e : Engine) (d : Disk) : Prop :=
  2 ≤ e.l0Tables.length → L1_COMPACTION_THRESHOLD ≤ e.l1Tables.length + 1 → ∀ k,
    (probe e.l1Tables k).or (Engine.live (probe e.l0Tables k)) =
      (Engine.live (probe e.l0Tables k)).or (probe (d.load e.manifest.l1Files) k)

theorem Serves.compactL0 (h : Serves E s e d v) (hc : CascadeSafe e d) :
    Serves E s e.compactL0.1 (d.applyAll E e.compactL0.2) v ∧ AtCuts E (Disk.Keep E s) d e.compactL0.2 := by
  have h' := h.mergeL0
  have hrank : 2 ≤ e.l0Tables.length → L1_COMPACTION_THRESHOLD ≤ e.l1Tables.length + 1 → ∀ k,
      probe (e.afterMerge .l0).l1Tables k =
        probe ((d.applyAll E (e.mergeLevel .l0).2).load (e.afterMerge .l0).manifest.l1Files) k := by
    intro hlen hfull k
    obtain ⟨hnew, hold⟩ := h.layout.mergedDisk_read (E := E) .l0
    have hlike := (like_after_mergeLevel (E := E) (d := d) h.layout.oldNames_l0).read
    have hload : (d.applyAll E (e.mergeLevel .l0).2).load (e.afterMerge .l0).manifest.l1Files =
        (e.mergedDisk E .l0 d).load (e.afterMerge .l0).manifest.l1Files :=
      Disk.load_congr fun f hf => hlike f (by simp [Manifest.files, hf])
    have hload' : (e.mergedDisk E .l0 d).load (e.afterMerge .l0).manifest.l1Files =
        e.merged .l0 :: d.load e.manifest.l1Files := by
      show (e.mergedDisk E .l0 d).load ((e.merged .l0).name :: e.manifest.l1Files) = _
      rw [Disk.load_cons hnew, Disk.load_congr fun f hf => hold f (by simp [Manifest.files, hf])]
    rw [hload, hload', probe_cons, get_merged]
    show probe (e.l1Tables ++ [e.merged .l0]) k = _
    rw [probe_append, probe_singleton, get_merged]
    exact hc hlen hfull k
  rcases e.compactL0_cases with ⟨-, hcase⟩ | ⟨-, -, hcase⟩ | ⟨hlen, hfull, hcase⟩
  · rw [hcase]
    exact ⟨h, atCuts_nil h.keep⟩
  · rw [hcase]
    exact ⟨h', atCuts_mergeLevel h.layout h.layout.oldNames_l0 h.persists h'.persists⟩
  · have h'' := h'.mergeL1 rfl (hrank hlen hfull)
    rw [hcase, Disk.applyAll_append]
    refine ⟨h'', (atCuts_mergeLevel h.layout h.layout.oldNames_l0 h.persists h'.persists).append ?_⟩
    exact atCuts_mergeLevel h'.layout (h'.layout.oldNames_l1 rfl) h'.persists h''.persists

/-- If L0 is full, its compaction is safe. -/
def MaybeCompactSafe (e : Engine) (d : Disk) : Prop := L0_COMPACTION_THRESHOLD ≤ e.l0Tables.length → CascadeSafe e d

theorem Serves.maybeCompact (h : Serves E s e d v) (hc : MaybeCompactSafe e d) :
    Serves E s e.maybeCompact.1 (d.applyAll E e.maybeCompact.2) v ∧ AtCuts E (Disk.Keep E s) d e.maybeCompact.2 := by
  unfold Engine.maybeCompact
  split
  · rename_i hfull
    exact h.compactL0 (hc hfull)
  · exact ⟨h, atCuts_nil h.keep⟩

theorem Serves.forceCompact (h : Serves E s e d v) (hc : CascadeSafe e d) :
    Serves E s e.forceCompact.1 (d.applyAll E e.forceCompact.2) v ∧ AtCuts E (Disk.Keep E s) d e.forceCompact.2 := by
  unfold Engine.forceCompact
  split
  · exact h.compactL0 hc
  · exact ⟨h, atCuts_nil h.keep⟩

/-- The condition of a compaction asks for nothing a flush changes in the
directory. -/
theorem MaybeCompactSafe.congr (h : MaybeCompactSafe e d)
    (hr : ∀ f ∈ e.manifest.l1Files, d'.read f = d.read f) : MaybeCompactSafe e d' := by
  intro hfull hlen hl1 k
  rw [Disk.load_congr hr]
  exact h hfull hlen hl1 k

theorem Layout.read_flush (h : Layout e d)
    (hr : ∀ f, d'.read f = if f = e.newTable.name then some e.newTable.table else d.read f) :
    ∀ f ∈ e.manifest.l1Files, d'.read f = d.read f := by
  intro f hf
  rw [hr, if_neg]
  rintro rfl
  exact h.listed.sst_fresh (List.mem_append_left _ (List.mem_append_right _ hf))

theorem Serves.flushLocked (h : Serves E s e d v) :
    (∃ v', Serves E s e.flushLocked.1 (d.applyAll E e.flushLocked.2) v') ∧
      SafeCuts E (Disk.Keep E s) d e.flushLocked.2 := by
  cases hm : e.activeMemtable.isEmpty with
  | true =>
    rw [Engine.flushLocked_empty hm]
    exact ⟨⟨v, h⟩, (atCuts_nil h.keep).safe⟩
  | false =>
    rw [Engine.flushLocked_eq h.layout.immutable hm]
    exact ⟨⟨_, h.truncateFirst.1⟩, h.truncateFirst.2⟩

/-- A flush that cuts the log first, then perhaps a compaction. -/
theorem Serves.truncateFirst_compact (h : Serves E s e d v) (hc : MaybeCompactSafe e.flushed d) :
    (∃ v', Serves E s e.flushed.maybeCompact.1 (d.applyAll E
      ([.tableWritten e.newTable.name e.newTable.table, .walTruncated, .manifestSaved e.flushed.manifest] ++
        e.flushed.maybeCompact.2)) v') ∧
    SafeCuts E (Disk.Keep E s) d
      ([.tableWritten e.newTable.name e.newTable.table, .walTruncated, .manifestSaved e.flushed.manifest] ++
        e.flushed.maybeCompact.2) := by
  obtain ⟨hf, hcuts⟩ := h.truncateFirst
  obtain ⟨hf', hcuts'⟩ := hf.maybeCompact (hc.congr (h.layout.read_flush fun f => by simp))
  rw [Disk.applyAll_append]
  exact ⟨⟨_, hf'⟩, hcuts.append hcuts'.safe⟩

theorem Serves.flushAndCompact (h : Serves E s e d v) (hc : MaybeCompactSafe e.flushed d) :
    (∃ v', Serves E s e.flushAndCompact.1 (d.applyAll E e.flushAndCompact.2) v') ∧
      AtCuts E (Disk.Keep E s) d e.flushAndCompact.2 := by
  obtain ⟨hf, hcuts⟩ := h.saveFirst
  obtain ⟨hf', hcuts'⟩ := hf.maybeCompact (hc.congr (h.layout.read_flush fun f => by simp))
  rw [Engine.flushAndCompact_eq, Disk.applyAll_append]
  exact ⟨⟨_, hf'⟩, hcuts.append hcuts'⟩

/-! ### Writes -/

theorem replayHit_concat (rs : List WalRecord) (r : WalRecord) (k : Key) :
    replayHit (rs ++ [r]) k = if r.key = k then some r.value else replayHit rs k := by
  unfold replayHit
  rw [Wal.lastOf_concat]
  split <;> rfl

/-- A record of the next sequence number goes to the log, and what it says to
the memtable. -/
theorem Serves.logged (h : Serves E s e d v) (hseq : e.sequenceNumber < e.sequenceNumber + 1) {r : WalRecord}
    (hr : r.seq = e.sequenceNumber + 1) (hsmall : r.Small) {clk : Clock}
    (hrot : Wal.RotationSafe E e.manifest.checkpointSeq d.wal r clk) {m : MemTable}
    (hm : Mirrors m (v.unflushed e.manifest.checkpointSeq ++ [r])) {s' : Key → Option Bytes}
    (hs' : ∀ k x, s' k = some x → x ≠ [] → if r.key = k then r.value = x else s k = some x) :
    Serves E s' { e with activeMemtable := m, sequenceNumber := e.sequenceNumber + 1 }
      (d.apply E (.walAppended r clk)) (v.writeRecord E r clk) := by
  rw [h.kept.wal] at hrot
  obtain ⟨hlater, hspare⟩ := hrot.view h.kept.small hsmall
  have hunf : (v.writeRecord E r clk).unflushed e.manifest.checkpointSeq =
      v.unflushed e.manifest.checkpointSeq ++ [r] := by
    have hlt : e.manifest.checkpointSeq < r.seq := hr ▸ h.checkpoint.trans_lt hseq
    rw [View.unflushed_writeRecord hspare]
    simp [hlt]
  have hmem : ∀ r' ∈ (v.writeRecord E r clk).records, r' ∈ v.records ∨ r' = r := by
    intro r' hr'
    have := (View.records_writeRecord_sublist (E := E) v r clk).subset hr'
    simpa using this
  refine ⟨h.layout.logged _ _ r clk, ⟨?_, ?_, ?_, ?_⟩, ?_, ?_, h.checkpoint.trans hseq.le⟩
  · rw [View.files_writeRecord, ← h.kept.wal]
    rfl
  · exact View.ordered_writeRecord h.kept.ordered hlater
  · intro r' hr'
    rcases hmem r' hr' with hr' | rfl
    · exact h.kept.small r' hr'
    · exact hsmall
  · intro k x hk hx
    have hkey := hs' k x hk hx
    show (replayHit ((v.writeRecord E r clk).unflushed e.manifest.checkpointSeq) k).or (d.hit e.manifest k) = some x
    rw [hunf, replayHit_concat]
    split at hkey
    · rename_i hrk
      rw [if_pos hrk, hkey]
      rfl
    · rename_i hrk
      rw [if_neg hrk]
      exact h.kept.keeps k x hkey hx
  · show Mirrors m ((v.writeRecord E r clk).unflushed e.manifest.checkpointSeq)
    rw [hunf]
    exact hm
  · intro r' hr'
    rcases hmem r' hr' with hr' | rfl
    · exact (h.seq r' hr').trans hseq.le
    · exact hr.le

theorem Mirrors.putRaw {m : MemTable} {rs : List WalRecord} (h : Mirrors m rs) (seq : UInt64) (k : Key)
    (data : Bytes) : Mirrors (m.putRaw k data) (rs ++ [Wal.putRecord seq k data]) := by
  intro k'
  have hk' := h k'
  have hlast : Wal.lastOf (rs ++ [Wal.putRecord seq k data]) k' =
      if k = k' then some (Wal.putRecord seq k data) else Wal.lastOf rs k' := Wal.lastOf_concat _ _ _
  rw [hlast, MemTable.putRaw, SkipList.node_put]
  by_cases hk : k = k'
  · subst hk
    rw [if_pos rfl, if_pos rfl]
    exact fun _ => rfl
  · rw [if_neg hk, if_neg hk]
    exact hk'

theorem Mirrors.remove {m : MemTable} {rs : List WalRecord} (h : Mirrors m rs) (seq : UInt64) (k : Key) :
    Mirrors (MemTable.remove m k) (rs ++ [Wal.deleteRecord seq k]) := by
  intro k'
  have hk' := h k'
  have hlast : Wal.lastOf (rs ++ [Wal.deleteRecord seq k]) k' =
      if k = k' then some (Wal.deleteRecord seq k) else Wal.lastOf rs k' := Wal.lastOf_concat _ _ _
  rw [hlast, MemTable.remove, SkipList.node_remove]
  by_cases hk : k = k'
  · rw [if_pos hk]
    exact fun ht => by cases ht
  · rw [if_neg hk]
    rcases hl : Wal.lastOf rs k' with _ | r
    · rw [hl] at hk'
      simp only at hk' ⊢
      rw [hk']
      rfl
    · rw [hl] at hk'
      intro ht
      rw [hk' ht]
      simp [hk]

end Serves

/-! ### Operations -/

/-- The operation meets none of the other ways to lose a version: its data
fits a record, the sequence number does not wrap, a rotation of the log is
safe, and so is a compaction. -/
def Op.Safe (E : Env) (e : Engine) (d : Disk) : Op → Prop
  | .putRaw k data full clk =>
    data.length ≤ Wal.MAX_DATA_LEN ∧ e.sequenceNumber < e.sequenceNumber + 1 ∧
      Wal.RotationSafe E e.manifest.checkpointSeq d.wal (Wal.putRecord (e.sequenceNumber + 1) k data) clk ∧
      (full = true → MaybeCompactSafe
        { e with sequenceNumber := e.sequenceNumber + 1,
                 activeMemtable := e.activeMemtable.putRaw k data : Engine }.flushed d)
  | .remove k clk =>
    e.sequenceNumber < e.sequenceNumber + 1 ∧
      Wal.RotationSafe E e.manifest.checkpointSeq d.wal (Wal.deleteRecord (e.sequenceNumber + 1) k) clk
  | .flush => True
  | .lazyFlush => MaybeCompactSafe e.flushed d
  | .maybeCompact => MaybeCompactSafe e d
  | .forceCompact => CascadeSafe e d

section Operations

variable {E : Env} {s : Key → Option Bytes} {e : Engine} {d : Disk} {v : View}

/-- The record of a put says what it writes. -/
theorem written_putRaw {k : Key} {data : Bytes} {full : Bool} {clk : Clock} {seq : UInt64} {k' : Key} {x : Bytes}
    (h : written s (.putRaw k data full clk) k' = some x) :
    if (Wal.putRecord seq k data).key = k' then (Wal.putRecord seq k data).value = x else s k' = some x := by
  show if k = k' then data = x else s k' = some x
  by_cases hk : k = k'
  · subst hk
    rw [if_pos rfl]
    simpa [written] using h
  · rw [written, Function.update_of_ne (Ne.symm hk)] at h
    rw [if_neg hk]
    exact h

theorem written_remove {k : Key} {clk : Clock} {seq : UInt64} {k' : Key} {x : Bytes}
    (h : written s (.remove k clk) k' = some x) :
    if (Wal.deleteRecord seq k).key = k' then (Wal.deleteRecord seq k).value = x else s k' = some x := by
  show if k = k' then [] = x else s k' = some x
  by_cases hk : k = k'
  · subst hk
    simp [written] at h
  · rw [written, Function.update_of_ne (Ne.symm hk)] at h
    rw [if_neg hk]
    exact h

/-- The cuts of a write that only logs its record. -/
theorem keep_take_walAppended {d : Disk} {s s' : Key → Option Bytes} {r : WalRecord} {clk : Clock} (h : d.Keep E s)
    (h' : (d.apply E (.walAppended r clk)).Keep E s') (n : ℕ) :
    (d.applyAll E ([Effect.walAppended r clk].take n)).Keep E (if n = 0 then s else s') := by
  rcases n with _ | n
  · exact h
  · rw [List.take_succ_cons, List.take_nil]
    exact h'

theorem Serves.lazyFlush (h : Serves E s e d v) (hc : (Op.lazyFlush).Safe E e d) :
    (∃ v', Serves E s e.lazyFlush.1 (d.applyAll E e.lazyFlush.2) v') ∧
      SafeCuts E (Disk.Keep E s) d e.lazyFlush.2 := by
  cases hm : e.activeMemtable.isEmpty with
  | true =>
    rw [Engine.lazyFlush_empty hm]
    exact ⟨⟨v, h⟩, (atCuts_nil h.keep).safe⟩
  | false =>
    rw [Engine.lazyFlush_eq e hm, Engine.flushLocked_eq h.layout.immutable hm]
    exact h.truncateFirst_compact hc

/-- After an operation the engine serves what is written, and wherever it is
cut the directory keeps what was written before, or is written once its record
is in the log. -/
theorem Serves.exec (h : Serves E s e d v) {op : Op} (hc : op.Safe E e d) :
    (∃ v', Serves E (written s op) (e.exec op).1 (d.applyAll E (e.exec op).2) v') ∧
      ∀ n, tornFlush (e.exec op).2 n = false →
        (d.applyAll E ((e.exec op).2.take n)).Keep E (if n = 0 then s else written s op) := by
  have hsame : ∀ {w : List Effect}, SafeCuts E (Disk.Keep E s) d w → ∀ n, tornFlush w n = false →
      (d.applyAll E (w.take n)).Keep E (if n = 0 then s else s) := by
    intro w hw n hn
    rw [ite_self]
    exact hw n hn
  cases op with
  | putRaw k data full clk =>
    obtain ⟨hlen, hseq, hrot, hcomp⟩ := hc
    have hput : Serves E (written s (.putRaw k data full clk))
        { e with activeMemtable := e.activeMemtable.putRaw k data, sequenceNumber := e.sequenceNumber + 1 }
        (d.apply E (.walAppended (Wal.putRecord (e.sequenceNumber + 1) k data) clk))
        (v.writeRecord E (Wal.putRecord (e.sequenceNumber + 1) k data) clk) :=
      h.logged hseq rfl (Wal.small_putRecord _ k hlen) hrot (h.mirrors.putRaw _ k data) fun k' x hk _ =>
        written_putRaw hk
    cases full with
    | false => exact ⟨⟨_, hput⟩, fun n _ => keep_take_walAppended h.keep hput.keep n⟩
    | true =>
      obtain ⟨hv, hcuts⟩ := hput.flushAndCompact (hcomp rfl)
      refine ⟨hv, fun n _ => ?_⟩
      rcases n with _ | n
      · exact h.keep
      · exact hcuts n
  | remove k clk =>
    obtain ⟨hseq, hrot⟩ := hc
    have hdel : Serves E (written s (.remove k clk))
        { e with activeMemtable := MemTable.remove e.activeMemtable k, sequenceNumber := e.sequenceNumber + 1 }
        (d.apply E (.walAppended (Wal.deleteRecord (e.sequenceNumber + 1) k) clk))
        (v.writeRecord E (Wal.deleteRecord (e.sequenceNumber + 1) k) clk) :=
      h.logged hseq rfl (Wal.small_deleteRecord _ k) hrot (h.mirrors.remove _ k) fun k' x hk _ => written_remove hk
    exact ⟨⟨_, hdel⟩, fun n _ => keep_take_walAppended h.keep hdel.keep n⟩
  | flush => exact ⟨h.flushLocked.1, hsame h.flushLocked.2⟩
  | lazyFlush => exact ⟨(h.lazyFlush hc).1, hsame (h.lazyFlush hc).2⟩
  | maybeCompact => exact ⟨⟨v, (h.maybeCompact hc).1⟩, hsame (h.maybeCompact hc).2.safe⟩
  | forceCompact => exact ⟨⟨v, (h.forceCompact hc).1⟩, hsame (h.forceCompact hc).2.safe⟩

/-! ### Opening -/

/-- The engine that has loaded the tables and replayed the log. -/
def recovered (E : Env) (d : Disk) : Engine := (Engine.loadTables d).1.replayWal E d

/-- The log delivers its records in order, and a compaction of the recovery
is safe. -/
def ConstructSafe (E : Env) (d : Disk) : Prop :=
  Wal.InOrder E d.recorded.checkpointSeq d.wal ∧
    ((recovered E d).activeMemtable.isEmpty = false → MaybeCompactSafe (recovered E d).flushed d)

theorem mirrors_rebuild (rs : List WalRecord) : Mirrors (Wal.rebuild rs) rs := by
  intro k
  rw [Wal.node_rebuild]
  rcases hl : Wal.lastOf rs k with _ | r
  · rfl
  · intro ht
    have hval : r.value = r.data := by simp [WalRecord.value, ht]
    simp [hval]

theorem Stored.applyAll_loadTables (h : Stored d) :
    (d.applyAll E (Engine.loadTables d).2).recorded = d.recorded ∧
      (d.applyAll E (Engine.loadTables d).2).wal = d.wal ∧
      ∀ f, (d.applyAll E (Engine.loadTables d).2).read f = d.read f := by
  rcases h with ⟨hm, hf⟩ | ⟨m, hm, -⟩
  · rw [loadTables_fresh hm hf, Disk.recorded, Disk.recorded, hm]
    exact ⟨rfl, rfl, fun _ => rfl⟩
  · rw [loadTables_some hm]
    exact ⟨rfl, rfl, fun _ => rfl⟩

theorem Keeps.replay_eq (h : Keeps E s d.recorded d v) (ho : Wal.InOrder E d.recorded.checkpointSeq d.wal) :
    Wal.replay E d.wal d.recorded.checkpointSeq = v.unflushed d.recorded.checkpointSeq := by
  rw [h.wal] at ho ⊢
  exact View.replay_small h.ordered h.small ho

theorem Stored.recovered_manifest (h : Stored d) : (recovered E d).manifest = d.recorded := by
  show (Engine.loadTables d).1.manifest = _
  rw [h.loadTables_fst]

/-- An engine with nothing to flush after the replay found nothing unflushed. -/
theorem Keeps.unflushed_of_isEmpty (h : Keeps E s d.recorded d v) (hs : Stored d)
    (ho : Wal.InOrder E d.recorded.checkpointSeq d.wal) (hm : (recovered E d).activeMemtable.isEmpty = true) :
    v.unflushed d.recorded.checkpointSeq = [] := by
  rw [← h.replay_eq ho, ← hs.recovered_manifest (E := E)]
  exact rebuild_isEmpty hm

/-- The engine that has replayed the log serves what the directory keeps. -/
theorem Keeps.serves (h : Keeps E s d.recorded d v) (hs : Stored d)
    (ho : Wal.InOrder E d.recorded.checkpointSeq d.wal) :
    Serves E s (recovered E d) (d.applyAll E (Engine.loadTables d).2) v := by
  have hlay : Layout (recovered E d) (d.applyAll E (Engine.loadTables d).2) :=
    (hs.loadTables (E := E)).1.writes _ _ rfl fun _ => rfl
  have hman : (recovered E d).manifest = d.recorded := hs.recovered_manifest
  obtain ⟨-, hw, hr⟩ := hs.applyAll_loadTables (E := E)
  refine ⟨hlay, ?_, ?_, ?_, ?_⟩
  · rw [hman]
    refine ⟨hw.trans h.wal, h.ordered, h.small, fun k x hk hx => ?_⟩
    rw [Disk.hit_congr fun f _ => hr f]
    exact h.keeps k x hk hx
  · rw [hman, ← h.replay_eq ho]
    show Mirrors (Wal.rebuild (Wal.replay E d.wal (Engine.loadTables d).1.manifest.checkpointSeq)) _
    rw [hs.loadTables_fst]
    exact mirrors_rebuild _
  · intro r hr'
    have hmem : r ∈ Wal.allRecords E d.wal := by
      rw [h.wal, View.allRecords_small h.ordered h.small]
      exact List.mem_append.mpr (List.mem_append.mp hr').symm
    exact (Wal.seq_le_maxSeq hmem).trans (le_max_right _ _)
  · exact le_max_left _ _

theorem Keeps.construct (h : Keeps E s d.recorded d v) (hs : Stored d) (hc : ConstructSafe E d) :
    (∃ v', Serves E s (Engine.construct E d).1 (d.applyAll E (Engine.construct E d).2) v') ∧
      SafeCuts E (Disk.Keep E s) d (Engine.construct E d).2 := by
  have hrec := h.serves hs hc.1
  obtain ⟨-, -, hr⟩ := hs.applyAll_loadTables (E := E)
  have hload : SafeCuts E (Disk.Keep E s) d (Engine.loadTables d).2 := by
    have hd : d.Keep E s := ⟨v, h⟩
    rcases hs with ⟨hm, hf⟩ | ⟨m, hm, -⟩
    · have hkeep : (d.apply E (.manifestSaved Manifest.empty)).Keep E s := by
        have := hrec.keep
        rwa [loadTables_fresh hm hf] at this
      rw [loadTables_fresh hm hf]
      exact (atCuts_cons hd (atCuts_nil hkeep)).safe
    · rw [loadTables_some hm]
      exact (atCuts_nil hd).safe
  have hflush : (∃ v', Serves E s (recovered E d).recoverFlush.1
        ((d.applyAll E (Engine.loadTables d).2).applyAll E (recovered E d).recoverFlush.2) v') ∧
      SafeCuts E (Disk.Keep E s) (d.applyAll E (Engine.loadTables d).2) (recovered E d).recoverFlush.2 := by
    cases hm : (recovered E d).activeMemtable.isEmpty with
    | true =>
      rw [Engine.recoverFlush_empty hm]
      exact ⟨⟨v, hrec⟩, (atCuts_nil hrec.keep).safe⟩
    | false =>
      rw [Engine.recoverFlush_eq hrec.layout.immutable hm]
      exact hrec.truncateFirst_compact ((hc.2 hm).congr fun f _ => hr f)
  show (∃ v', Serves E s (recovered E d).recoverFlush.1
      (d.applyAll E ((Engine.loadTables d).2 ++ (recovered E d).recoverFlush.2)) v') ∧
    SafeCuts E (Disk.Keep E s) d ((Engine.loadTables d).2 ++ (recovered E d).recoverFlush.2)
  rw [Disk.applyAll_append]
  exact ⟨hflush.1, hload.append hflush.2⟩

/-- The compaction that the recovery may run does not hide a version. -/
def RecoverySafe (E : Env) (d : Disk) : Prop :=
  (recovered E d).activeMemtable.isEmpty = false →
    L0_COMPACTION_THRESHOLD ≤ (recovered E d).flushed.l0Tables.length → ∀ k, (recovered E d).flushed.CompactSafe k

/-- An engine opened on the directory finds what it keeps. -/
theorem Keeps.get_construct (h : Keeps E s d.recorded d v) (hs : Stored d)
    (ho : Wal.InOrder E d.recorded.checkpointSeq d.wal) (hc : RecoverySafe E d) {k : Key} {x : Bytes}
    (hk : s k = some x) (hx : x ≠ []) : (Engine.construct E d).1.get k = some x := by
  have hrec := h.serves hs ho
  have hkeep := hrec.kept.keeps k x hk hx
  have htab : ∀ k, (recovered E d).tableHit k = d.hit d.recorded k := by
    intro k
    show (Engine.loadTables d).1.tableHit k = _
    rw [hs.loadTables_fst]
    rfl
  have hman : (recovered E d).manifest = d.recorded := hs.recovered_manifest
  obtain ⟨-, -, hr⟩ := hs.applyAll_loadTables (E := E)
  show (recovered E d).recoverFlush.1.get k = some x
  cases hm : (recovered E d).activeMemtable.isEmpty with
  | true =>
    -- nothing was replayed: the tables have the value
    have hhit : d.hit d.recorded k = some x := by
      have := h.keeps k x hk hx
      rwa [h.unflushed_of_isEmpty hs ho hm] at this
    rw [Engine.recoverFlush_empty hm, Engine.get_of_node hrec.layout.immutable, MemTable.node_of_isEmpty hm]
    show Engine.live ((recovered E d).tableHit k) = some x
    rw [htab, hhit, Engine.live_some hx]
  | false =>
    have hflushed : (recovered E d).flushed.get k = some x := by
      have hnew := hrec.hit_newTable hk hx
      rw [Disk.hit_congr fun f _ => hr f, hman] at hnew
      rw [Engine.get_of_node rfl, Engine.flushed_activeMemtable, SkipList.node_empty]
      show Engine.live ((recovered E d).flushed.tableHit k) = some x
      rw [Engine.tableHit_flushed, htab]
      show Engine.live (((recovered E d).newTable.table.get k).or _) = some x
      rw [hnew, Engine.live_some hx]
    rw [Engine.recoverFlush_eq hrec.layout.immutable hm]
    show (recovered E d).flushed.maybeCompact.1.get k = some x
    unfold Engine.maybeCompact
    split
    · rename_i hfull
      have hl := (hrec.layout.truncateFirst (E := E)).1
      exact ((hl.get_compactL0_iff k).mpr (hc hm hfull k)).trans hflushed
    · exact hflushed

end Operations

/-! ### Runs -/

/-- The step loses no version by other ways, and no crash tears a flush. -/
def Event.Safe (E : Env) : Process → Event → Prop
  | .running e d, .exec op => op.Safe E e d
  | .running e d, .crash op n => op.Safe E e d ∧ tornFlush (e.exec op).2 n = false
  | .stopped d, .construct => ConstructSafe E d
  | .stopped d, .crashConstruct n => ConstructSafe E d ∧ tornFlush (Engine.construct E d).2 n = false
  | _, _ => True

/-- What an event acknowledges: a write counts once its record is in the
log. -/
def ack (s : Key → Option Bytes) : Process → Event → Key → Option Bytes
  | .running _ _, .exec op => written s op
  | .running _ _, .crash op n => if n = 0 then s else written s op
  | _, _ => s

/-- The acknowledged writes after a run from `p`. -/
def acked (E : Env) : Process → (Key → Option Bytes) → List Event → Key → Option Bytes
  | _, s, [] => s
  | p, s, ev :: evs => acked E (p.step E ev) (ack s p ev) evs

/-- The process keeps `s`. -/
def Process.Keep (E : Env) (s : Key → Option Bytes) : Process → Prop
  | .running e d => ∃ v, Serves E s e d v
  | .stopped d => Stored d ∧ d.Keep E s

theorem Process.Keep.step {E : Env} {s : Key → Option Bytes} {p : Process} (h : p.Keep E s) {ev : Event}
    (hc : Event.Safe E p ev) : (p.step E ev).Keep E (ack s p ev) := by
  cases p with
  | running e d =>
    obtain ⟨v, hv⟩ := h
    cases ev with
    | exec op => exact (hv.exec hc).1
    | close => exact ⟨hv.layout.flushLocked.2.all, hv.flushLocked.2.all⟩
    | crash op n => exact ⟨(hv.layout.exec op).2 n, (hv.exec hc.1).2 n hc.2⟩
    | construct => exact ⟨v, hv⟩
    | crashConstruct n => exact ⟨v, hv⟩
  | stopped d =>
    obtain ⟨hs, v, hv⟩ := h
    cases ev with
    | construct => exact (hv.construct hs hc).1
    | crashConstruct n => exact ⟨hs.construct.2 n, (hv.construct hs hc.1).2 n hc.2⟩
    | exec op => exact ⟨hs, v, hv⟩
    | close => exact ⟨hs, v, hv⟩
    | crash op n => exact ⟨hs, v, hv⟩

theorem Process.keep_run {E : Env} : ∀ {evs : List Event} {p : Process} {s : Key → Option Bytes}, p.Keep E s →
    Along (Process.step E) (Event.Safe E) p evs → (run (Process.step E) p evs).Keep E (acked E p s evs)
  | [], _, _, h, _ => h
  | ev :: evs, p, s, h, hc => by
    have hstep : (p.step E ev).Keep E (ack s p ev) := Process.Keep.step h hc.1
    show (run (Process.step E) (p.step E ev) evs).Keep E (acked E (p.step E ev) (ack s p ev) evs)
    exact keep_run hstep hc.2

theorem Process.keep_fresh (E : Env) : Process.fresh.Keep E fun _ => none := by
  refine ⟨Or.inl ⟨rfl, rfl⟩, View.empty, rfl, List.Pairwise.nil, ?_, ?_⟩
  · intro r hr
    cases hr
  · intro k x hk
    cases hk

/-- **Every acknowledged put is found after a crash**, in every run whose steps
are safe: wherever the run left the directory, the engine opened on it answers
the last acknowledged put of a key. -/
theorem Process.acked_recovered (E : Env) (evs : List Event)
    (h : Along (Process.step E) (Event.Safe E) Process.fresh evs) (d : Disk)
    (hd : run (Process.step E) Process.fresh evs = .stopped d) (ho : ConstructSafe E d) (hc : RecoverySafe E d)
    (k : Key) (x : Bytes) (hk : acked E Process.fresh (fun _ => none) evs k = some x) (hx : x ≠ []) :
    (Engine.construct E d).1.get k = some x := by
  have hkeep := Process.keep_run (Process.keep_fresh E) h
  rw [hd] at hkeep
  obtain ⟨hs, v, hv⟩ := hkeep
  exact hv.get_construct hs ho.1 hc hk hx

end Lsm
end Amind
