/-
# The tables in memory and in the directory

`Layout e d` says how a running engine and its directory fit together: the
manifest is saved, every table it lists is there, the engine's L0 tables are
the listed ones in their order, and those of L1 and L2 are the listed ones in
some order. Table ids are never reused for a listed table, and the tables of
L1 and L2, being outputs of compactions, hold no deletions. Every event keeps
this, wherever a crash falls (`Process.layout_run`): what a crash leaves is
a directory whose manifest lists tables that are there (`Stored`).
-/
import Mathlib.Data.List.Perm.Basic
import Amind.Lsm.Engine

namespace Amind
namespace Lsm

open Run (run Along)
open Wal (Env)

/-! ### The directory after effects -/

namespace Disk

variable (E : Env) (d : Disk)

@[simp] theorem applyAll_nil : d.applyAll E [] = d := rfl

@[simp] theorem applyAll_cons (x : Effect) (w : List Effect) :
    d.applyAll E (x :: w) = (d.apply E x).applyAll E w := rfl

theorem applyAll_append (w w' : List Effect) :
    d.applyAll E (w ++ w') = (d.applyAll E w).applyAll E w' := by
  simp [applyAll]

theorem lookup_filter_ne (f f' : FileName) : ∀ fs : List (FileName × SSTable),
    (fs.filter fun x => x.1 ≠ f).lookup f' = if f' = f then none else fs.lookup f'
  | [] => by simp
  | (a, t) :: fs => by
    have ih := lookup_filter_ne f f' fs
    rw [List.filter_cons, List.lookup_cons]
    by_cases ha : a = f
    · subst ha
      rw [if_neg (by simp), ih]
      by_cases hf : f' = a
      · rw [if_pos hf, if_pos hf]
      · have hb : (f' == a) = false := by simpa using hf
        rw [if_neg hf, if_neg hf, hb]
    · rw [if_pos (by simpa using ha), List.lookup_cons, ih]
      by_cases hb : f' = a
      · subst hb
        simp [ha]
      · have hb' : (f' == a) = false := by simpa using hb
        rw [hb']

@[simp] theorem read_tableWritten (f : FileName) (t : SSTable) (f' : FileName) :
    (d.apply E (.tableWritten f t)).read f' = if f' = f then some t else d.read f' := by
  show ((f, t) :: d.files.filter fun x => x.1 ≠ f).lookup f' = _
  rw [List.lookup_cons, lookup_filter_ne]
  by_cases h : f' = f
  · subst h
    simp
  · have hb : (f' == f) = false := by simpa using h
    rw [hb, if_neg h, if_neg h]
    rfl

@[simp] theorem read_fileRemoved (f f' : FileName) :
    (d.apply E (.fileRemoved f)).read f' = if f' = f then none else d.read f' :=
  lookup_filter_ne f f' d.files

@[simp] theorem read_manifestSaved (m : Manifest) (f : FileName) :
    (d.apply E (.manifestSaved m)).read f = d.read f := rfl

@[simp] theorem read_walTruncated (f : FileName) : (d.apply E .walTruncated).read f = d.read f := rfl

@[simp] theorem read_walAppended (r : Wal.WalRecord) (clk : Wal.Clock) (f : FileName) :
    (d.apply E (.walAppended r clk)).read f = d.read f := rfl

/-- Removing files changes nothing but these files. -/
theorem applyAll_fileRemoved : ∀ (fs : List FileName) (d : Disk),
    (d.applyAll E (fs.map .fileRemoved)).manifest = d.manifest ∧
      (d.applyAll E (fs.map .fileRemoved)).wal = d.wal ∧
      ∀ f, f ∉ fs → (d.applyAll E (fs.map .fileRemoved)).read f = d.read f
  | [], d => ⟨rfl, rfl, fun _ _ => rfl⟩
  | f :: fs, d => by
    obtain ⟨h₁, h₂, h₃⟩ := applyAll_fileRemoved fs (d.apply E (.fileRemoved f))
    refine ⟨h₁, h₂, fun f' hf' => ?_⟩
    obtain ⟨hne, hnot⟩ := not_or.mp (fun h => hf' (List.mem_cons.mpr h))
    rw [List.map_cons, applyAll_cons, h₃ f' hnot, read_fileRemoved, if_neg hne]

/-! ### Loading tables -/

variable {d}

theorem mem_load {fs : List FileName} {t : Table} : t ∈ d.load fs ↔ t.name ∈ fs ∧ d.read t.name = some t.table := by
  simp only [load, List.mem_filterMap, Option.map_eq_some_iff]
  constructor
  · rintro ⟨f, hf, t', ht', rfl⟩
    exact ⟨hf, ht'⟩
  · rintro ⟨hf, ht⟩
    exact ⟨t.name, hf, t.table, ht, rfl⟩

theorem load_congr {d' : Disk} {fs : List FileName} (h : ∀ f ∈ fs, d'.read f = d.read f) :
    d'.load fs = d.load fs :=
  List.filterMap_congr fun f hf => by rw [h f hf]

theorem load_cons {f : FileName} {t : SSTable} (h : d.read f = some t) (fs : List FileName) :
    d.load (f :: fs) = ⟨f, t⟩ :: d.load fs := by
  simp [load, h]

theorem map_name_load : ∀ {fs : List FileName}, (∀ f ∈ fs, ∃ t, d.read f = some t) →
    (d.load fs).map (·.name) = fs
  | [], _ => rfl
  | f :: fs, h => by
    obtain ⟨t, ht⟩ := h f List.mem_cons_self
    rw [load_cons ht, List.map_cons, map_name_load fun f' hf' => h f' (List.mem_cons_of_mem _ hf')]

end Disk

/-! ### The listed tables -/

/-- The table holds no deletion. -/
def SSTable.NoDeletion (t : SSTable) : Prop := ∀ k, t.get k ≠ some []

theorem SSTable.noDeletion_mergeTables (ts : List SSTable) : (SSTable.mergeTables ts).NoDeletion := by
  intro k h
  rw [SSTable.get_mergeTables, Option.filter_eq_some_iff] at h
  simp at h

/-- All files the manifest lists. -/
def Manifest.files (m : Manifest) : List FileName := m.l0Files ++ m.l1Files ++ m.l2Files

/-- The tables the manifest lists are in the directory, those of L1 and L2
with ids below `b`. -/
structure Listed (b : ℕ) (m : Manifest) (d : Disk) : Prop where
  bound : b ≤ m.nextSstId
  l0 : ∀ f ∈ m.l0Files, (∃ n < m.nextSstId, f = .sst n) ∧ ∃ t, d.read f = some t
  l1 : ∀ f ∈ m.l1Files, (∃ n < b, f = .l1 n) ∧ ∃ t, d.read f = some t ∧ t.NoDeletion
  l2 : ∀ f ∈ m.l2Files, (∃ n < b, f = .l2 n) ∧ ∃ t, d.read f = some t ∧ t.NoDeletion

/-- The directory has the manifest, and the log and the listed tables of
`d`. -/
structure Like (m : Manifest) (d d' : Disk) : Prop where
  manifest : d'.manifest = some m
  wal : d'.wal = d.wal
  read : ∀ f ∈ m.files, d'.read f = d.read f

theorem Like.refl {m : Manifest} {d : Disk} (h : d.manifest = some m) : Like m d d := ⟨h, rfl, fun _ _ => rfl⟩

theorem Like.trans {m : Manifest} {d d' d'' : Disk} (h : Like m d d') (h' : Like m d' d'') : Like m d d'' :=
  ⟨h'.manifest, h'.wal.trans h.wal, fun f hf => (h'.read f hf).trans (h.read f hf)⟩

theorem Like.symm {m : Manifest} {d d' : Disk} (h : Like m d d') (hm : d.manifest = some m) : Like m d' d :=
  ⟨hm, h.wal.symm, fun f hf => (h.read f hf).symm⟩

theorem Listed.congr {b : ℕ} {m : Manifest} {d d' : Disk} (h : Listed b m d)
    (hr : ∀ f ∈ m.files, d'.read f = d.read f) : Listed b m d' := by
  refine ⟨h.bound, fun f hf => ?_, fun f hf => ?_, fun f hf => ?_⟩
  · rw [hr f (by simp [Manifest.files, hf])]
    exact h.l0 f hf
  · rw [hr f (by simp [Manifest.files, hf])]
    exact h.l1 f hf
  · rw [hr f (by simp [Manifest.files, hf])]
    exact h.l2 f hf

/-- The new L0 table's name is not listed. -/
theorem Listed.sst_fresh {b : ℕ} {m : Manifest} {d : Disk} (h : Listed b m d) : .sst m.nextSstId ∉ m.files := by
  intro hf
  simp only [Manifest.files, List.mem_append] at hf
  rcases hf with (hf | hf) | hf
  · obtain ⟨⟨n, hn, he⟩, -⟩ := h.l0 _ hf
    cases he
    exact lt_irrefl _ hn
  · obtain ⟨⟨n, -, he⟩, -⟩ := h.l1 _ hf
    cases he
  · obtain ⟨⟨n, -, he⟩, -⟩ := h.l2 _ hf
    cases he

/-- A compaction's output name is not listed. -/
theorem Listed.output_fresh {b : ℕ} {m : Manifest} {d : Disk} (h : Listed b m d) (level : Level) :
    level.outputName b ∉ m.files := by
  intro hf
  simp only [Manifest.files, List.mem_append] at hf
  rcases hf with (hf | hf) | hf
  · obtain ⟨⟨n, -, he⟩, -⟩ := h.l0 _ hf
    cases level <;> cases he
  · obtain ⟨⟨n, hn, he⟩, -⟩ := h.l1 _ hf
    cases level <;> cases he
    exact lt_irrefl _ hn
  · obtain ⟨⟨n, hn, he⟩, -⟩ := h.l2 _ hf
    cases level <;> cases he
    exact lt_irrefl _ hn

/-- Writing a table that is not listed. -/
theorem Like.tableWritten {m : Manifest} {d : Disk} (E : Env) (hm : d.manifest = some m) {f : FileName}
    (hf : f ∉ m.files) (t : SSTable) : Like m d (d.apply E (.tableWritten f t)) := by
  refine ⟨hm, rfl, fun f' hf' => ?_⟩
  have hne : f' ≠ f := fun h => hf (h ▸ hf')
  rw [Disk.read_tableWritten, if_neg hne]

/-- Removing files that are not listed. -/
theorem Like.fileRemoved {m : Manifest} {d : Disk} (E : Env) (hm : d.manifest = some m) {fs : List FileName}
    (hfs : ∀ f ∈ fs, f ∉ m.files) : Like m d (d.applyAll E (fs.map .fileRemoved)) := by
  obtain ⟨h₁, h₂, h₃⟩ := Disk.applyAll_fileRemoved E fs d
  exact ⟨h₁.trans hm, h₂, fun f hf => h₃ f fun hmem => hfs f hmem hf⟩

/-- Erasing a list's elements one by one leaves nothing. -/
theorem foldl_erase_perm : ∀ {old fs : List FileName}, old.Perm fs → old.foldl List.erase fs = []
  | [], fs, h => by simpa using h.symm
  | f :: old, fs, h => by
    rw [List.foldl_cons]
    refine foldl_erase_perm ?_
    have := h.erase f
    rwa [List.erase_cons_head] at this

/-! ### A running engine -/

/-- The engine's tables are the listed ones. -/
structure Layout (e : Engine) (d : Disk) : Prop where
  saved : d.manifest = some e.manifest
  immutable : e.immutableMemtable = none
  listed : Listed e.nextSstId e.manifest d
  l0 : e.l0Tables = d.load e.manifest.l0Files
  l1 : e.l1Tables.Perm (d.load e.manifest.l1Files)
  l2 : e.l2Tables.Perm (d.load e.manifest.l2Files)

namespace Layout

variable {E : Env} {e : Engine} {d d' : Disk}

theorem congr (h : Layout e d) (hm : d'.manifest = some e.manifest)
    (hr : ∀ f ∈ e.manifest.files, d'.read f = d.read f) : Layout e d' where
  saved := hm
  immutable := h.immutable
  listed := h.listed.congr hr
  l0 := by rw [h.l0, Disk.load_congr fun f hf => hr f (by simp [Manifest.files, hf])]
  l1 := by rw [Disk.load_congr fun f hf => hr f (by simp [Manifest.files, hf])]; exact h.l1
  l2 := by rw [Disk.load_congr fun f hf => hr f (by simp [Manifest.files, hf])]; exact h.l2

/-- Memtable, sequence number and log are free. -/
theorem writes (h : Layout e d) (m : MemTable) (s : UInt64) (hm : d'.manifest = d.manifest)
    (hr : ∀ f, d'.read f = d.read f) : Layout { e with activeMemtable := m, sequenceNumber := s } d' :=
  have h' : Layout e d' := h.congr (hm.trans h.saved) fun f _ => hr f
  ⟨h'.saved, h'.immutable, h'.listed, h'.l0, h'.l1, h'.l2⟩

theorem l0_names (h : Layout e d) : e.l0Tables.map (·.name) = e.manifest.l0Files := by
  rw [h.l0, Disk.map_name_load fun f hf => (h.listed.l0 f hf).2]

theorem l1_names (h : Layout e d) : (e.l1Tables.map (·.name)).Perm e.manifest.l1Files := by
  have := h.l1.map (·.name)
  rwa [Disk.map_name_load fun f hf => (h.listed.l1 f hf).2.imp fun _ ht => ht.1] at this

theorem sst_not_mem_l1 (h : Layout e d) {f : FileName} (hf : f ∈ e.l0Tables.map (·.name)) :
    f ∉ e.manifest.l1Files ∧ f ∉ e.manifest.l2Files := by
  rw [h.l0_names] at hf
  obtain ⟨⟨n, -, rfl⟩, -⟩ := h.listed.l0 f hf
  refine ⟨fun h₁ => ?_, fun h₂ => ?_⟩
  · obtain ⟨⟨_, -, he⟩, -⟩ := h.listed.l1 _ h₁
    cases he
  · obtain ⟨⟨_, -, he⟩, -⟩ := h.listed.l2 _ h₂
    cases he

theorem l1_not_mem_l2 (h : Layout e d) {f : FileName} (hf : f ∈ e.l1Tables.map (·.name)) :
    f ∉ e.manifest.l2Files := by
  obtain ⟨⟨n, -, rfl⟩, -⟩ := h.listed.l1 f (h.l1_names.subset hf)
  intro h₂
  obtain ⟨⟨_, -, he⟩, -⟩ := h.listed.l2 _ h₂
  cases he

/-- The memtable is a listed L0 table. -/
theorem flushed (h : Layout e d) (hm : d'.manifest = some e.flushed.manifest)
    (hr : ∀ f, d'.read f = if f = e.newTable.name then some e.newTable.table else d.read f) :
    Layout e.flushed d' := by
  have hnew : d'.read e.newTable.name = some e.newTable.table := by rw [hr, if_pos rfl]
  have hold : ∀ f ∈ e.manifest.files, d'.read f = d.read f := by
    intro f hf
    rw [hr, if_neg]
    rintro rfl
    exact h.listed.sst_fresh hf
  have hlisted := h.listed.congr hold
  refine ⟨hm, rfl, ⟨hlisted.bound.trans (Nat.le_succ _), ?_, hlisted.l1, hlisted.l2⟩, ?_, ?_, ?_⟩
  · intro f hf
    rcases List.mem_cons.mp hf with rfl | hf
    · exact ⟨⟨e.manifest.nextSstId, Nat.lt_succ_self _, rfl⟩, _, hnew⟩
    · obtain ⟨⟨n, hn, he⟩, ht⟩ := hlisted.l0 f hf
      exact ⟨⟨n, hn.trans (Nat.lt_succ_self _), he⟩, ht⟩
  · show e.newTable :: e.l0Tables = d'.load (e.newTable.name :: e.manifest.l0Files)
    rw [Disk.load_cons hnew, h.l0, Disk.load_congr fun f hf => hold f (by simp [Manifest.files, hf])]
  · show e.l1Tables.Perm (d'.load e.manifest.l1Files)
    rw [Disk.load_congr fun f hf => hold f (by simp [Manifest.files, hf])]
    exact h.l1
  · show e.l2Tables.Perm (d'.load e.manifest.l2Files)
    rw [Disk.load_congr fun f hf => hold f (by simp [Manifest.files, hf])]
    exact h.l2

end Layout

/-! ### Compactions -/

namespace Engine

/-- The output of a compaction of the level. -/
def merged (e : Engine) (level : Level) : Table :=
  ⟨level.outputName e.nextSstId, SSTable.mergeTables ((e.sourceTables level).map (·.table))⟩

/-- The engine after the level's tables were merged. -/
def afterMerge (e : Engine) (level : Level) : Engine := (e.mergeLevel level).1

/-- The names of the files a compaction of the level deletes. -/
def oldNames (e : Engine) (level : Level) : List FileName := (e.sourceTables level).map (·.name)

theorem mergeLevel_effects (e : Engine) (level : Level) :
    (e.mergeLevel level).2 = [.tableWritten (e.merged level).name (e.merged level).table,
      .manifestSaved (e.afterMerge level).manifest] ++ (e.oldNames level).map .fileRemoved := by
  cases level <;> rfl

/-- The directory once a compaction has saved its manifest. -/
def mergedDisk (E : Env) (e : Engine) (level : Level) (d : Disk) : Disk :=
  d.applyAll E [.tableWritten (e.merged level).name (e.merged level).table,
    .manifestSaved (e.afterMerge level).manifest]

end Engine

namespace Layout

variable {E : Env} {e : Engine} {d d' : Disk}

theorem mergedDisk_read (h : Layout e d) (level : Level) :
    (e.mergedDisk E level d).read (e.merged level).name = some (e.merged level).table ∧
      ∀ f ∈ e.manifest.files, (e.mergedDisk E level d).read f = d.read f := by
  refine ⟨by simp [Engine.mergedDisk], fun f hf => ?_⟩
  have hne : f ≠ (e.merged level).name := by
    rintro rfl
    exact h.listed.output_fresh level hf
  simp [Engine.mergedDisk, hne]

/-- L0 merged into L1. -/
theorem mergeL0 (h : Layout e d) : Layout (e.afterMerge .l0) (e.mergedDisk E .l0 d) := by
  obtain ⟨hnew, hold⟩ := h.mergedDisk_read (E := E) .l0
  have hlisted := h.listed.congr hold
  have hl0 : (e.afterMerge .l0).manifest.l0Files = [] :=
    foldl_erase_perm (by rw [Engine.sourceTables, h.l0_names])
  refine ⟨rfl, h.immutable, ⟨le_rfl, ?_, ?_, ?_⟩, ?_, ?_, ?_⟩
  · rw [hl0]
    exact fun f hf => absurd hf (List.not_mem_nil)
  · intro f hf
    rcases List.mem_cons.mp hf with rfl | hf
    · exact ⟨⟨e.nextSstId, Nat.lt_succ_self _, rfl⟩, _, hnew, SSTable.noDeletion_mergeTables _⟩
    · obtain ⟨⟨n, hn, he⟩, ht⟩ := hlisted.l1 f hf
      exact ⟨⟨n, hn.trans (Nat.lt_succ_self _), he⟩, ht⟩
  · intro f hf
    obtain ⟨⟨n, hn, he⟩, ht⟩ := hlisted.l2 f hf
    exact ⟨⟨n, hn.trans (Nat.lt_succ_self _), he⟩, ht⟩
  · rw [hl0]
    rfl
  · show (e.l1Tables ++ [e.merged .l0]).Perm ((e.mergedDisk E .l0 d).load ((e.merged .l0).name :: e.manifest.l1Files))
    rw [Disk.load_cons hnew, Disk.load_congr fun f hf => hold f (by simp [Manifest.files, hf])]
    exact (List.perm_append_singleton _ _).trans (h.l1.cons _)
  · show e.l2Tables.Perm ((e.mergedDisk E .l0 d).load e.manifest.l2Files)
    rw [Disk.load_congr fun f hf => hold f (by simp [Manifest.files, hf])]
    exact h.l2

/-- L1 merged into L2, as the cascade does when L0 is empty. -/
theorem mergeL1 (h : Layout e d) (hempty : e.l0Tables = []) :
    Layout (e.afterMerge .l1) (e.mergedDisk E .l1 d) := by
  obtain ⟨hnew, hold⟩ := h.mergedDisk_read (E := E) .l1
  have hlisted := h.listed.congr hold
  have hl0 : e.manifest.l0Files = [] := by rw [← h.l0_names, hempty]; rfl
  have hl1 : (e.afterMerge .l1).manifest.l1Files = [] := foldl_erase_perm h.l1_names
  refine ⟨rfl, h.immutable, ⟨le_rfl, ?_, ?_, ?_⟩, ?_, ?_, ?_⟩
  · show ∀ f ∈ e.manifest.l0Files, _
    rw [hl0]
    exact fun f hf => absurd hf (List.not_mem_nil)
  · rw [hl1]
    exact fun f hf => absurd hf (List.not_mem_nil)
  · intro f hf
    rcases List.mem_cons.mp hf with rfl | hf
    · exact ⟨⟨e.nextSstId, Nat.lt_succ_self _, rfl⟩, _, hnew, SSTable.noDeletion_mergeTables _⟩
    · obtain ⟨⟨n, hn, he⟩, ht⟩ := hlisted.l2 f hf
      exact ⟨⟨n, hn.trans (Nat.lt_succ_self _), he⟩, ht⟩
  · show e.l0Tables = (e.mergedDisk E .l1 d).load e.manifest.l0Files
    rw [hempty, hl0]
    rfl
  · rw [hl1]
    exact List.Perm.refl _
  · show (e.l2Tables ++ [e.merged .l1]).Perm ((e.mergedDisk E .l1 d).load ((e.merged .l1).name :: e.manifest.l2Files))
    rw [Disk.load_cons hnew, Disk.load_congr fun f hf => hold f (by simp [Manifest.files, hf])]
    exact (List.perm_append_singleton _ _).trans (h.l2.cons _)

/-- The files a compaction deletes are not listed any more. -/
theorem oldNames_l0 (h : Layout e d) : ∀ f ∈ e.oldNames .l0, f ∉ (e.afterMerge .l0).manifest.files := by
  intro f hf hm
  have hl0 : (e.afterMerge .l0).manifest.l0Files = [] :=
    foldl_erase_perm (by rw [Engine.sourceTables, h.l0_names])
  obtain ⟨h₁, h₂⟩ := h.sst_not_mem_l1 hf
  obtain ⟨⟨n, -, rfl⟩, -⟩ := h.listed.l0 f (h.l0_names ▸ hf)
  rw [Manifest.files, hl0, List.nil_append] at hm
  rcases List.mem_append.mp hm with hm | hm
  · rcases List.mem_cons.mp hm with he | hm
    · cases he
    · exact h₁ hm
  · exact h₂ hm

theorem oldNames_l1 (h : Layout e d) (hempty : e.l0Tables = []) :
    ∀ f ∈ e.oldNames .l1, f ∉ (e.afterMerge .l1).manifest.files := by
  intro f hf hm
  have hl0 : (e.afterMerge .l1).manifest.l0Files = [] := by
    show e.manifest.l0Files = []
    rw [← h.l0_names, hempty]
    rfl
  have hl1 : (e.afterMerge .l1).manifest.l1Files = [] := foldl_erase_perm h.l1_names
  have h₂ := h.l1_not_mem_l2 hf
  obtain ⟨⟨n, -, rfl⟩, -⟩ := h.listed.l1 f (h.l1_names.subset hf)
  rw [Manifest.files, hl0, hl1, List.nil_append, List.nil_append] at hm
  rcases List.mem_cons.mp hm with he | hm
  · cases he
  · exact h₂ hm

end Layout

/-! ### Every point of an operation -/

/-- `P` holds of the directory before the effects and after each of them. -/
def AtCuts (E : Env) (P : Disk → Prop) (d : Disk) (w : List Effect) : Prop :=
  ∀ n, P (d.applyAll E (w.take n))

/-- `P` holds of every directory with the engine's manifest and the tables it
lists. -/
def Persists (P : Disk → Prop) (e : Engine) (d : Disk) : Prop := ∀ d', Like e.manifest d d' → P d'

section Cuts

variable {E : Env} {P : Disk → Prop} {e : Engine} {d : Disk}

theorem AtCuts.all {w : List Effect} (h : AtCuts E P d w) : P (d.applyAll E w) := by
  have := h w.length
  rwa [List.take_length] at this

theorem atCuts_nil (h : P d) : AtCuts E P d [] := fun n => by simpa using h

theorem atCuts_cons {x : Effect} {w : List Effect} (h : P d) (h' : AtCuts E P (d.apply E x) w) :
    AtCuts E P d (x :: w) := by
  intro n
  cases n with
  | zero => exact h
  | succ n => exact h' n

theorem AtCuts.append {w w' : List Effect} (h : AtCuts E P d w) (h' : AtCuts E P (d.applyAll E w) w') :
    AtCuts E P d (w ++ w') := by
  intro n
  rw [List.take_append, Disk.applyAll_append]
  rcases Nat.lt_or_ge n w.length with hn | hn
  · rw [Nat.sub_eq_zero_of_le hn.le]
    exact h n
  · rw [List.take_of_length_le hn]
    exact h' (n - w.length)

theorem Persists.here (h : Persists P e d) (hl : Layout e d) : P d := h d (Like.refl hl.saved)

/-- The directory after a compaction has the tables it had when the manifest
was saved. -/
theorem like_mergeLevel {level : Level}
    (hold : ∀ f ∈ e.oldNames level, f ∉ (e.afterMerge level).manifest.files) (n : ℕ) :
    Like (e.afterMerge level).manifest (e.mergedDisk E level d)
      ((e.mergedDisk E level d).applyAll E (((e.oldNames level).take n).map .fileRemoved)) :=
  Like.fileRemoved E rfl fun f hf => hold f (List.mem_of_mem_take hf)

theorem applyAll_mergeLevel (level : Level) :
    d.applyAll E (e.mergeLevel level).2 =
      (e.mergedDisk E level d).applyAll E ((e.oldNames level).map .fileRemoved) := by
  rw [Engine.mergeLevel_effects, Disk.applyAll_append]
  rfl

theorem like_after_mergeLevel {level : Level}
    (hold : ∀ f ∈ e.oldNames level, f ∉ (e.afterMerge level).manifest.files) :
    Like (e.afterMerge level).manifest (e.mergedDisk E level d) (d.applyAll E (e.mergeLevel level).2) := by
  have := like_mergeLevel (E := E) (d := d) hold (e.oldNames level).length
  rwa [List.take_length, ← applyAll_mergeLevel] at this

/-- A compaction passes from the tables before it to those after it when it
saves the manifest. -/
theorem atCuts_mergeLevel {level : Level} (hl : Layout e d)
    (hold : ∀ f ∈ e.oldNames level, f ∉ (e.afterMerge level).manifest.files) (h : Persists P e d)
    (h' : Persists P (e.afterMerge level) (d.applyAll E (e.mergeLevel level).2)) :
    AtCuts E P d (e.mergeLevel level).2 := by
  rw [Engine.mergeLevel_effects]
  refine atCuts_cons (h.here hl) (atCuts_cons (h _ ?_) fun n => h' _ ?_)
  · exact Like.tableWritten E hl.saved (hl.listed.output_fresh level) _
  · refine ((like_after_mergeLevel hold).symm rfl).trans ?_
    show Like _ _ (Disk.applyAll E (e.mergedDisk E level d) (((e.oldNames level).map Effect.fileRemoved).take n))
    rw [← List.map_take]
    exact like_mergeLevel hold n

theorem Layout.mergeLevel_l0 (h : Layout e d) :
    Layout (e.afterMerge .l0) (d.applyAll E (e.mergeLevel .l0).2) := by
  have hl := like_after_mergeLevel (E := E) (d := d) h.oldNames_l0
  exact h.mergeL0.congr hl.manifest hl.read

theorem Layout.mergeLevel_l1 (h : Layout e d) (hempty : e.l0Tables = []) :
    Layout (e.afterMerge .l1) (d.applyAll E (e.mergeLevel .l1).2) := by
  have hl := like_after_mergeLevel (E := E) (d := d) (h.oldNames_l1 hempty)
  exact (h.mergeL1 hempty).congr hl.manifest hl.read

/-- A compaction of L0 does nothing, or merges L0, or merges L0 and then
L1. -/
theorem Engine.compactL0_cases (e : Engine) :
    (e.l0Tables.length < 2 ∧ e.compactL0 = (e, [])) ∨
      (2 ≤ e.l0Tables.length ∧ e.l1Tables.length + 1 < L1_COMPACTION_THRESHOLD ∧
        e.compactL0 = e.mergeLevel .l0) ∨
      (2 ≤ e.l0Tables.length ∧ L1_COMPACTION_THRESHOLD ≤ e.l1Tables.length + 1 ∧
        e.compactL0 = ((e.afterMerge .l0).afterMerge .l1,
          (e.mergeLevel .l0).2 ++ ((e.afterMerge .l0).mergeLevel .l1).2)) := by
  have hlen : (e.afterMerge .l0).l1Tables.length = e.l1Tables.length + 1 := by
    show (e.l1Tables ++ [_]).length = _
    simp
  by_cases h : e.l0Tables.length < 2
  · exact Or.inl ⟨h, if_pos h⟩
  · have h2 : 2 ≤ e.l0Tables.length := Nat.le_of_not_lt h
    have hc : e.compactL0 = if L1_COMPACTION_THRESHOLD ≤ (e.afterMerge .l0).l1Tables.length then
        ((e.afterMerge .l0).afterMerge .l1, (e.mergeLevel .l0).2 ++ ((e.afterMerge .l0).mergeLevel .l1).2)
        else e.mergeLevel .l0 := if_neg h
    rw [hlen] at hc
    by_cases h' : L1_COMPACTION_THRESHOLD ≤ e.l1Tables.length + 1
    · exact Or.inr (Or.inr ⟨h2, h', hc.trans (if_pos h')⟩)
    · exact Or.inr (Or.inl ⟨h2, Nat.lt_of_not_le h', hc.trans (if_neg h')⟩)

theorem Layout.compactL0 (h : Layout e d) : Layout e.compactL0.1 (d.applyAll E e.compactL0.2) := by
  rcases e.compactL0_cases with ⟨-, hc⟩ | ⟨-, -, hc⟩ | ⟨-, -, hc⟩
  · rw [hc]
    exact h
  · rw [hc]
    exact h.mergeLevel_l0
  · rw [hc, Disk.applyAll_append]
    exact h.mergeLevel_l0.mergeLevel_l1 rfl

theorem atCuts_compactL0 (hl : Layout e d) (h : Persists P e d)
    (h' : Persists P (e.afterMerge .l0) (d.applyAll E (e.mergeLevel .l0).2))
    (h'' : L1_COMPACTION_THRESHOLD ≤ e.l1Tables.length + 1 →
      Persists P ((e.afterMerge .l0).afterMerge .l1)
        ((d.applyAll E (e.mergeLevel .l0).2).applyAll E ((e.afterMerge .l0).mergeLevel .l1).2)) :
    AtCuts E P d e.compactL0.2 := by
  rcases e.compactL0_cases with ⟨-, hc⟩ | ⟨-, -, hc⟩ | ⟨-, hfull, hc⟩
  · rw [hc]
    exact atCuts_nil (h.here hl)
  · rw [hc]
    exact atCuts_mergeLevel hl hl.oldNames_l0 h h'
  · rw [hc]
    have hl' : Layout (e.afterMerge .l0) (d.applyAll E (e.mergeLevel .l0).2) := hl.mergeLevel_l0
    exact (atCuts_mergeLevel hl hl.oldNames_l0 h h').append
      (atCuts_mergeLevel hl' (hl'.oldNames_l1 rfl) h' (h'' hfull))

theorem Layout.maybeCompact (h : Layout e d) : Layout e.maybeCompact.1 (d.applyAll E e.maybeCompact.2) := by
  unfold Engine.maybeCompact
  split
  · exact h.compactL0
  · exact h

theorem Layout.forceCompact (h : Layout e d) : Layout e.forceCompact.1 (d.applyAll E e.forceCompact.2) := by
  unfold Engine.forceCompact
  split
  · exact h.compactL0
  · exact h

end Cuts

/-! ### The life of the process -/

theorem Listed.mono {b b' : ℕ} {m : Manifest} {d : Disk} (h : Listed b m d) (hb : b ≤ b')
    (hb' : b' ≤ m.nextSstId) : Listed b' m d where
  bound := hb'
  l0 := h.l0
  l1 := fun f hf => (h.l1 f hf).imp (fun ⟨n, hn, he⟩ => ⟨n, hn.trans_le hb, he⟩) id
  l2 := fun f hf => (h.l2 f hf).imp (fun ⟨n, hn, he⟩ => ⟨n, hn.trans_le hb, he⟩) id

/-- A new directory, or one that has the tables its manifest lists. -/
def Stored (d : Disk) : Prop :=
  (d.manifest = none ∧ d.files = []) ∨ ∃ m, d.manifest = some m ∧ Listed m.nextSstId m d

/-- The manifest an engine opens the directory with. -/
def Disk.recorded (d : Disk) : Manifest := d.manifest.getD Manifest.empty

theorem Disk.recorded_eq {d : Disk} {m : Manifest} (h : d.manifest = some m) : d.recorded = m := by
  rw [recorded, h]
  rfl

section Life

variable {E : Env} {e : Engine} {d : Disk}

theorem Layout.stored (h : Layout e d) {d' : Disk} (hm : d'.manifest = some e.manifest)
    (hr : ∀ f ∈ e.manifest.files, d'.read f = d.read f) : Stored d' :=
  Or.inr ⟨_, hm, (h.listed.congr hr).mono h.listed.bound le_rfl⟩

theorem Layout.persists_stored (h : Layout e d) : Persists Stored e d :=
  fun _ hl => h.stored hl.manifest hl.read

theorem Layout.atCuts_compactL0 (h : Layout e d) : AtCuts E Stored d e.compactL0.2 :=
  Lsm.atCuts_compactL0 h h.persists_stored h.mergeLevel_l0.persists_stored fun _ =>
    (h.mergeLevel_l0.mergeLevel_l1 rfl).persists_stored

theorem Layout.atCuts_maybeCompact (h : Layout e d) : AtCuts E Stored d e.maybeCompact.2 := by
  unfold Engine.maybeCompact
  split
  · exact h.atCuts_compactL0
  · exact atCuts_nil (h.stored h.saved fun _ _ => rfl)

/-- The new table written but not listed yet. -/
theorem Layout.like_newTable (h : Layout e d) :
    Like e.manifest d (d.apply E (.tableWritten e.newTable.name e.newTable.table)) :=
  Like.tableWritten E h.saved h.listed.sst_fresh _

/-- The log is cut before the manifest is saved. -/
theorem Layout.truncateFirst (h : Layout e d) :
    Layout e.flushed (d.applyAll E
      [.tableWritten e.newTable.name e.newTable.table, .walTruncated, .manifestSaved e.flushed.manifest]) ∧
    AtCuts E Stored d
      [.tableWritten e.newTable.name e.newTable.table, .walTruncated, .manifestSaved e.flushed.manifest] := by
  have hflushed : Layout e.flushed (d.applyAll E
      [.tableWritten e.newTable.name e.newTable.table, .walTruncated, .manifestSaved e.flushed.manifest]) :=
    h.flushed rfl fun f => by simp
  refine ⟨hflushed, ?_⟩
  have hnew := h.like_newTable (E := E)
  refine atCuts_cons (h.stored h.saved fun _ _ => rfl) (atCuts_cons ?_ (atCuts_cons ?_ (atCuts_nil ?_)))
  · exact h.stored hnew.manifest hnew.read
  · exact h.stored hnew.manifest fun f hf => by rw [Disk.read_walTruncated, hnew.read f hf]
  · exact hflushed.stored hflushed.saved fun _ _ => rfl

/-- The manifest is saved before the log is cut. -/
theorem Layout.saveFirst (h : Layout e d) :
    Layout e.flushed (d.applyAll E
      [.tableWritten e.newTable.name e.newTable.table, .manifestSaved e.flushed.manifest, .walTruncated]) ∧
    AtCuts E Stored d
      [.tableWritten e.newTable.name e.newTable.table, .manifestSaved e.flushed.manifest, .walTruncated] := by
  have hflushed : Layout e.flushed (d.applyAll E
      [.tableWritten e.newTable.name e.newTable.table, .manifestSaved e.flushed.manifest, .walTruncated]) :=
    h.flushed rfl fun f => by simp
  refine ⟨hflushed, ?_⟩
  have hnew := h.like_newTable (E := E)
  refine atCuts_cons (h.stored h.saved fun _ _ => rfl) (atCuts_cons ?_ (atCuts_cons ?_ (atCuts_nil ?_)))
  · exact h.stored hnew.manifest hnew.read
  · exact hflushed.stored rfl fun f _ => by simp
  · exact hflushed.stored hflushed.saved fun _ _ => rfl

theorem Layout.flushLocked (h : Layout e d) :
    Layout e.flushLocked.1 (d.applyAll E e.flushLocked.2) ∧ AtCuts E Stored d e.flushLocked.2 := by
  cases hm : e.activeMemtable.isEmpty with
  | true =>
    rw [Engine.flushLocked_empty hm]
    exact ⟨h, atCuts_nil (h.stored h.saved fun _ _ => rfl)⟩
  | false =>
    rw [Engine.flushLocked_eq h.immutable hm]
    exact h.truncateFirst

theorem Layout.flushAndCompact (h : Layout e d) :
    Layout e.flushAndCompact.1 (d.applyAll E e.flushAndCompact.2) ∧ AtCuts E Stored d e.flushAndCompact.2 := by
  rw [Engine.flushAndCompact_eq, Disk.applyAll_append]
  obtain ⟨hf, hc⟩ := h.saveFirst (E := E)
  exact ⟨hf.maybeCompact, hc.append hf.atCuts_maybeCompact⟩

/-- A write to the memtable and the log. -/
theorem Layout.logged (h : Layout e d) (m : MemTable) (s : UInt64) (r : Wal.WalRecord) (clk : Wal.Clock) :
    Layout { e with activeMemtable := m, sequenceNumber := s } (d.apply E (.walAppended r clk)) :=
  h.writes m s rfl fun _ => rfl

/-- An operation keeps the layout, and leaves a readable directory wherever it
is cut. -/
theorem Layout.exec (h : Layout e d) (op : Op) :
    Layout (e.exec op).1 (d.applyAll E (e.exec op).2) ∧ AtCuts E Stored d (e.exec op).2 := by
  have hd : Stored d := h.stored h.saved fun _ _ => rfl
  cases op with
  | putRaw k data full clk =>
    have hw := h.logged (E := E) (e.activeMemtable.putRaw k data) (e.sequenceNumber + 1)
      (Wal.putRecord (e.sequenceNumber + 1) k data) clk
    show Layout (e.putRaw k data full clk).1 _ ∧ AtCuts E Stored d (e.putRaw k data full clk).2
    cases full with
    | false => exact ⟨hw, atCuts_cons hd (atCuts_nil (hw.stored hw.saved fun _ _ => rfl))⟩
    | true => exact ⟨hw.flushAndCompact.1, atCuts_cons hd hw.flushAndCompact.2⟩
  | remove k clk =>
    have hw := h.logged (E := E) (MemTable.remove e.activeMemtable k) (e.sequenceNumber + 1)
      (Wal.deleteRecord (e.sequenceNumber + 1) k) clk
    exact ⟨hw, atCuts_cons hd (atCuts_nil (hw.stored hw.saved fun _ _ => rfl))⟩
  | flush => exact h.flushLocked
  | lazyFlush =>
    show Layout e.lazyFlush.1 (d.applyAll E e.lazyFlush.2) ∧ AtCuts E Stored d e.lazyFlush.2
    cases hm : e.activeMemtable.isEmpty with
    | true =>
      rw [Engine.lazyFlush_empty hm]
      exact ⟨h, atCuts_nil hd⟩
    | false =>
      rw [Engine.lazyFlush_eq e hm, Disk.applyAll_append]
      obtain ⟨hf, hc⟩ := h.flushLocked (E := E)
      exact ⟨hf.maybeCompact, hc.append hf.atCuts_maybeCompact⟩
  | maybeCompact => exact ⟨h.maybeCompact, h.atCuts_maybeCompact⟩
  | forceCompact =>
    refine ⟨h.forceCompact, ?_⟩
    show AtCuts E Stored d e.forceCompact.2
    unfold Engine.forceCompact
    split
    · exact h.atCuts_compactL0
    · exact atCuts_nil hd

/-- A new directory gets a manifest that lists nothing. -/
theorem loadTables_fresh (hm : d.manifest = none) (hf : d.files = []) :
    Engine.loadTables d =
      (⟨SkipList.empty, none, [], [], [], 0, Manifest.empty, 0⟩, [.manifestSaved Manifest.empty]) := by
  simp only [Engine.loadTables, hm, Disk.scan, hf]
  rfl

/-- The tables are loaded in the order the manifest lists them. -/
theorem loadTables_some {m : Manifest} (hm : d.manifest = some m) :
    Engine.loadTables d =
      (⟨SkipList.empty, none, d.load m.l0Files, d.load m.l1Files, d.load m.l2Files, m.nextSstId, m, 0⟩, []) := by
  simp only [Engine.loadTables, hm]

/-- An engine opened on the directory has the tables of its manifest. -/
theorem Stored.loadTables_fst (h : Stored d) :
    (Engine.loadTables d).1 = ⟨SkipList.empty, none, d.load d.recorded.l0Files, d.load d.recorded.l1Files,
      d.load d.recorded.l2Files, d.recorded.nextSstId, d.recorded, 0⟩ := by
  rcases h with ⟨hm, hf⟩ | ⟨m, hm, -⟩
  · rw [loadTables_fresh hm hf, Disk.recorded, hm]
    rfl
  · rw [loadTables_some hm, Disk.recorded, hm]
    rfl

theorem Stored.loadTables (h : Stored d) :
    Layout (Engine.loadTables d).1 (d.applyAll E (Engine.loadTables d).2) ∧
      AtCuts E Stored d (Engine.loadTables d).2 := by
  rcases h with ⟨hm, hf⟩ | ⟨m, hm, hl⟩
  · have hlay : Layout ⟨SkipList.empty, none, [], [], [], 0, Manifest.empty, 0⟩
        (d.applyAll E [.manifestSaved Manifest.empty]) := by
      refine ⟨rfl, rfl, ⟨le_rfl, ?_, ?_, ?_⟩, rfl, List.Perm.refl _, List.Perm.refl _⟩ <;>
        exact fun f hf => absurd hf List.not_mem_nil
    rw [loadTables_fresh hm hf]
    exact ⟨hlay, atCuts_cons (Or.inl ⟨hm, hf⟩) (atCuts_nil (hlay.stored hlay.saved fun _ _ => rfl))⟩
  · rw [loadTables_some hm]
    exact ⟨⟨hm, rfl, hl, rfl, List.Perm.refl _, List.Perm.refl _⟩, atCuts_nil (Or.inr ⟨m, hm, hl⟩)⟩

theorem Layout.recoverFlush (h : Layout e d) :
    Layout e.recoverFlush.1 (d.applyAll E e.recoverFlush.2) ∧ AtCuts E Stored d e.recoverFlush.2 := by
  cases hm : e.activeMemtable.isEmpty with
  | true =>
    rw [Engine.recoverFlush_empty hm]
    exact ⟨h, atCuts_nil (h.stored h.saved fun _ _ => rfl)⟩
  | false =>
    rw [Engine.recoverFlush_eq h.immutable hm, Disk.applyAll_append]
    obtain ⟨hf, hc⟩ := h.truncateFirst (E := E)
    exact ⟨hf.maybeCompact, hc.append hf.atCuts_maybeCompact⟩

theorem Stored.construct (h : Stored d) :
    Layout (Engine.construct E d).1 (d.applyAll E (Engine.construct E d).2) ∧
      AtCuts E Stored d (Engine.construct E d).2 := by
  obtain ⟨hl, hc⟩ := h.loadTables (E := E)
  have hr : Layout ((Engine.loadTables d).1.replayWal E d) (d.applyAll E (Engine.loadTables d).2) :=
    hl.writes _ _ rfl fun _ => rfl
  obtain ⟨hl', hc'⟩ := hr.recoverFlush (E := E)
  show Layout ((Engine.loadTables d).1.replayWal E d).recoverFlush.1
      (d.applyAll E ((Engine.loadTables d).2 ++ ((Engine.loadTables d).1.replayWal E d).recoverFlush.2)) ∧
    AtCuts E Stored d ((Engine.loadTables d).2 ++ ((Engine.loadTables d).1.replayWal E d).recoverFlush.2)
  rw [Disk.applyAll_append]
  exact ⟨hl', hc.append hc'⟩

/-- The layout of a running engine; the readable directory of a stopped
one. -/
def Process.Laid : Process → Prop
  | .running e d => Layout e d
  | .stopped d => Stored d

theorem Process.Laid.step {p : Process} (h : p.Laid) (ev : Event) : (p.step E ev).Laid := by
  cases p with
  | running e d =>
    cases ev with
    | exec op => exact (Layout.exec h op).1
    | close => exact (Layout.flushLocked h).2.all
    | crash op n => exact (Layout.exec h op).2 n
    | construct => exact h
    | crashConstruct n => exact h
  | stopped d =>
    cases ev with
    | construct => exact (Stored.construct h).1
    | crashConstruct n => exact (Stored.construct h).2 n
    | exec op => exact h
    | close => exact h
    | crash op n => exact h

/-- In every run from a new directory, engine and directory fit together. -/
theorem Process.layout_run (E : Env) (evs : List Event) : (run (Process.step E) Process.fresh evs).Laid := by
  have := Run.run_inv (Process.step E) (I := fun _ p => p.Laid) (C := fun _ _ => True)
    (fun _ _ ev h _ => h.step ev) evs [] Process.fresh (Or.inl ⟨rfl, rfl⟩) (Run.along_true _ _)
  simpa using this

end Life

end Lsm
end Amind
