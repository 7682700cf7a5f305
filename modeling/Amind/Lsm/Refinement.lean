/-
# The engine over files refines the engine

`Event.Meets` says of the tables a step writes, the one of the memtable and
those a compaction comes to, that they have some property. If they all fit
(`TableEnv.Fits`) nothing is thrown, the engine's contents after the step are
what the step makes of its contents, and so are the effects on the directory,
one by one (`exec_refines`, `construct_refines`).
A run whose steps all fit is a run of its contents (`contents_run`).
-/
import Amind.Lsm.Contents

namespace Amind
namespace Lsm

open Run (run Along)
open Wal (Env)

/-! ### What is written -/

/-- A property of the tables that are written, each with the number of entries
its writer expects. -/
abbrev OfTables : Type := ℕ → SSTable → Prop

namespace Engine

variable (F : OfTables) (e : Engine)

/-- The table a flush of the memtable writes. -/
def FlushMeets : Prop := F e.activeMemtable.nodes.length (SSTable.ofMemTable e.activeMemtable)

/-- The table a merge of the level writes. The footers of the merged tables
count their entries in four bytes. -/
def MergeMeets (level : Level) : Prop :=
  F ((e.sourceTables level).map fun t => t.table.entries.length % 2 ^ 32).sum (e.merged level).table

/-- The tables a compaction of L0 writes. -/
def CompactMeets : Prop :=
  2 ≤ e.l0Tables.length → e.MergeMeets F .l0 ∧
    (L1_COMPACTION_THRESHOLD ≤ e.l1Tables.length + 1 → (e.afterMerge .l0).MergeMeets F .l1)

def MaybeCompactMeets : Prop := L0_COMPACTION_THRESHOLD ≤ e.l0Tables.length → e.CompactMeets F

/-- The tables a flush and the compaction after it write. -/
def FlushCompactMeets : Prop := e.FlushMeets F ∧ e.flushed.MaybeCompactMeets F

/-- The engine with the record in its memtable. -/
def afterPut (k : Key) (data : Bytes) : Engine :=
  { e with sequenceNumber := e.sequenceNumber + 1, activeMemtable := e.activeMemtable.putRaw k data }

/-- The tables the operation writes. -/
def Meets : Op → Prop
  | .putRaw k data full _ => full = true → (e.afterPut k data).FlushCompactMeets F
  | .remove _ _ => True
  | .flush => e.activeMemtable.isEmpty = false → e.FlushMeets F
  | .lazyFlush => e.activeMemtable.isEmpty = false → e.FlushMeets F ∧ e.flushLocked.1.MaybeCompactMeets F
  | .maybeCompact => e.MaybeCompactMeets F
  | .forceCompact => e.CompactMeets F

end Engine

/-- The tables the recovery writes. -/
def RecoveryMeets (F : OfTables) (E : Env) (d : Disk) : Prop :=
  ((Engine.loadTables d).1.replayWal E d).activeMemtable.isEmpty = false →
    ((Engine.loadTables d).1.replayWal E d).FlushCompactMeets F

/-- The tables the event writes. -/
def Event.Meets (F : OfTables) (E : Env) : Process → Event → Prop
  | .running e _, .exec op => e.Meets F op
  | .running e _, .close => e.Meets F .flush
  | .running e _, .crash op _ => e.Meets F op
  | .stopped d, .construct => RecoveryMeets F E d
  | .stopped d, .crashConstruct _ => RecoveryMeets F E d
  | _, _ => True

section Decide

variable (F : OfTables) [∀ n t, Decidable (F n t)] (e : Engine)

instance : Decidable (e.FlushMeets F) := by
  unfold Engine.FlushMeets
  infer_instance

instance (level : Level) : Decidable (e.MergeMeets F level) := by
  unfold Engine.MergeMeets
  infer_instance

instance : Decidable (e.CompactMeets F) := by
  unfold Engine.CompactMeets
  infer_instance

instance : Decidable (e.MaybeCompactMeets F) := by
  unfold Engine.MaybeCompactMeets
  infer_instance

instance : Decidable (e.FlushCompactMeets F) := by
  unfold Engine.FlushCompactMeets
  infer_instance

instance (op : Op) : Decidable (e.Meets F op) := by
  cases op <;> unfold Engine.Meets <;> infer_instance

instance (E : Env) (d : Disk) : Decidable (RecoveryMeets F E d) := by
  unfold RecoveryMeets
  infer_instance

instance (E : Env) (p : Process) (ev : Event) : Decidable (ev.Meets F E p) := by
  cases p <;> cases ev <;> unfold Event.Meets <;> infer_instance

end Decide

section Meets

variable {F G : OfTables} (hFG : ∀ n t, F n t → G n t)

include hFG

theorem Engine.CompactMeets.mono {e : Engine} (h : e.CompactMeets F) : e.CompactMeets G := fun hlen =>
  ⟨hFG _ _ (h hlen).1, fun hfull => hFG _ _ ((h hlen).2 hfull)⟩

theorem Engine.MaybeCompactMeets.mono {e : Engine} (h : e.MaybeCompactMeets F) : e.MaybeCompactMeets G := fun hfull =>
  (h hfull).mono hFG

theorem Engine.FlushCompactMeets.mono {e : Engine} (h : e.FlushCompactMeets F) : e.FlushCompactMeets G :=
  ⟨hFG _ _ h.1, h.2.mono hFG⟩

theorem Engine.Meets.mono {e : Engine} {op : Op} (h : e.Meets F op) : e.Meets G op := by
  cases op with
  | putRaw k data full clk => exact fun hfull => (h hfull).mono hFG
  | remove k clk => trivial
  | flush => exact fun hm => hFG _ _ (h hm)
  | lazyFlush => exact fun hm => ⟨hFG _ _ (h hm).1, (h hm).2.mono hFG⟩
  | maybeCompact => exact Engine.MaybeCompactMeets.mono hFG h
  | forceCompact => exact Engine.CompactMeets.mono hFG h

theorem RecoveryMeets.mono {E : Env} {d : Disk} (h : RecoveryMeets F E d) : RecoveryMeets G E d := fun hm =>
  (h hm).mono hFG

theorem Event.Meets.mono {E : Env} {p : Process} {ev : Event} (h : ev.Meets F E p) : ev.Meets G E p := by
  cases p with
  | running e d =>
    cases ev with
    | exec op => exact Engine.Meets.mono hFG h
    | close =>
      have hflush : e.Meets F .flush := h
      exact hflush.mono hFG
    | crash op n =>
      have hop : e.Meets F op := h
      exact hop.mono hFG
    | construct => trivial
    | crashConstruct n => trivial
  | stopped d =>
    cases ev with
    | construct => exact RecoveryMeets.mono hFG h
    | crashConstruct n => exact RecoveryMeets.mono hFG h
    | exec op => trivial
    | close => trivial
    | crash op n => trivial

end Meets

/-! ### Outcomes -/

/-- What an effect on the files does to their contents. -/
inductive FileEffect.Shows (T : TableEnv) : FileEffect → Effect → Prop
  | tableWritten {f : FileName} {data : Bytes} {r : SSTableReader} (hload : SSTableReader.load (T.path f) data = .ok r)
      (hsound : r.Sound T) : Shows T (.tableWritten f data) (.tableWritten f (r.contents T.lz))
  | manifestSaved (m : Manifest) : Shows T (.manifestSaved m) (.manifestSaved m)
  | walAppended (r : Wal.WalRecord) (clk : Wal.Clock) : Shows T (.walAppended r clk) (.walAppended r clk)
  | walTruncated : Shows T .walTruncated .walTruncated
  | fileRemoved (f : FileName) : Shows T (.fileRemoved f) (.fileRemoved f)

/-- Nothing is thrown, and engine and effects are those of the contents. -/
structure Outcome.Refines (T : TableEnv) (o : Outcome) (p : Engine × List Effect) : Prop where
  thrown : o.thrown = none
  sound : o.engine.Sound T
  contents : o.engine.contents T.lz = p.1
  effects : List.Forall₂ (FileEffect.Shows T) o.effects p.2

section Outcomes

variable {T : TableEnv}

theorem Outcome.refines_done {e : LSMEngine} (h : e.Sound T) : (Outcome.done e).Refines T (e.contents T.lz, []) :=
  ⟨rfl, h, rfl, .nil⟩

theorem Outcome.Refines.andThen {o : Outcome} {p : Engine × List Effect} (h : o.Refines T p)
    {f : LSMEngine → Outcome} (g : Engine → Engine × List Effect)
    (hf : ∀ e : LSMEngine, e.Sound T → e.contents T.lz = p.1 → (f e).Refines T (g (e.contents T.lz))) :
    (o.andThen f).Refines T ((g p.1).1, p.2 ++ (g p.1).2) := by
  have h' := hf o.engine h.sound h.contents
  rw [h.contents] at h'
  unfold Outcome.andThen
  rw [h.thrown]
  exact ⟨h'.thrown, h'.sound, h'.contents, List.rel_append h.effects h'.effects⟩

/-- The directory after the effects. -/
theorem Directory.Sound.apply (E : Env) {d : Directory} (h : d.Sound T) {x : FileEffect} {y : Effect}
    (hxy : x.Shows T y) : (d.apply E x).Sound T ∧ (d.apply E x).contents T = (d.contents T).apply E y := by
  have hfilter : ∀ f, ((d.files.filter fun x => x.1 ≠ f).map (·.1)).Nodup := fun f =>
    (List.filter_sublist.map _).nodup h.names
  have hread : ∀ f, (d.files.filter fun x => x.1 ≠ f).filterMap (readFile T) =
      (d.files.filterMap (readFile T)).filter fun x => x.1 ≠ f := by
    intro f
    rw [List.filter_filterMap, List.filterMap_filter]
    refine List.filterMap_congr fun x _ => ?_
    cases hx : readFile T x with
    | none => simp
    | some y => simp [Option.filter, readFile_name hx]
  cases hxy with
  | @tableWritten f data r hload hsound =>
    refine ⟨⟨?_, fun x hx r' hr' => ?_⟩, ?_⟩
    · refine List.nodup_cons.mpr ⟨fun hmem => ?_, hfilter f⟩
      obtain ⟨x, hx, hxf⟩ := List.mem_map.mp hmem
      simpa [hxf] using (List.mem_filter.mp hx).2
    · rcases List.mem_cons.mp hx with rfl | hx
      · rwa [← Except.ok.inj (hload.symm.trans hr')]
      · exact h.files x (List.mem_filter.mp hx).1 r' hr'
    · have hsome : readFile T (f, data) = some (f, r.contents T.lz) := by rw [readFile, hload]; rfl
      show Disk.mk _ (((f, data) :: _).filterMap _) _ = Disk.mk _ (_ :: _) _
      rw [List.filterMap_cons_some hsome, hread]
      rfl
  | manifestSaved m => exact ⟨⟨h.names, h.files⟩, rfl⟩
  | walAppended r clk => exact ⟨⟨h.names, h.files⟩, rfl⟩
  | walTruncated => exact ⟨⟨h.names, h.files⟩, rfl⟩
  | fileRemoved f =>
    refine ⟨⟨hfilter f, fun x hx => h.files x (List.mem_filter.mp hx).1⟩, ?_⟩
    show Disk.mk _ (List.filterMap _ (List.filter _ _)) _ = Disk.mk _ (List.filter _ _) _
    rw [hread]
    rfl

theorem Directory.Sound.applyAll (E : Env) : ∀ {d : Directory} {w : List FileEffect} {w' : List Effect}, d.Sound T →
    List.Forall₂ (FileEffect.Shows T) w w' →
    (d.applyAll E w).Sound T ∧ (d.applyAll E w).contents T = (d.contents T).applyAll E w'
  | _, _, _, h, .nil => ⟨h, rfl⟩
  | d, x :: w, y :: w', h, .cons hxy hw => by
    obtain ⟨hs, hc⟩ := h.apply E hxy
    have ih := hs.applyAll E hw
    rw [hc] at ih
    exact ih

end Outcomes

/-! ### Operations -/

namespace LSMEngine

variable {T : TableEnv} {e : LSMEngine}

theorem Sound.flushMemTable (hlz : T.lz.Lawful) (h : e.Sound T) {m : MemTable}
    (hfit : T.Fits m.nodes.length (SSTable.ofMemTable m)) :
    (e.flushMemTable T m).Refines T ((e.contents T.lz).flushMemTable m) := by
  obtain ⟨data, r, hwrite, hload, hcontents, hsound⟩ := hfit.written hlz (T.path (.sst e.manifest.nextSstId))
  have hwritten : SSTableWriter.write T.lz T.hash (UInt64.ofNat m.nodes.length) (m.nodes.map SSTable.entryOf) =
      .ok data := hwrite
  unfold LSMEngine.flushMemTable
  dsimp only
  rw [hwritten]
  dsimp only
  rw [hload]
  have hl0 : ∀ t ∈ (⟨.sst e.manifest.nextSstId, r⟩ :: e.l0Tables : List OpenTable), t.reader.Sound T := by
    intro t ht
    rcases List.mem_cons.mp ht with rfl | ht
    · exact hsound
    · exact h.l0 t ht
  refine ⟨rfl, ⟨hl0, h.l1, h.l2⟩, ?_, .cons ?_ .nil⟩
  · rw [LSMEngine.contents, Engine.flushMemTable, ← hcontents]
    rfl
  · rw [← hcontents]
    exact .tableWritten hload hsound

theorem Sound.flushLocked (hlz : T.lz.Lawful) (h : e.Sound T) (hfit : (e.contents T.lz).Meets T.Fits .flush) :
    (e.flushLocked T).Refines T (e.contents T.lz).flushLocked := by
  unfold LSMEngine.flushLocked Engine.flushLocked
  show Outcome.Refines T (if e.activeMemtable.isEmpty = true then _ else _)
    (if e.activeMemtable.isEmpty = true then _ else _)
  cases hm : e.activeMemtable.isEmpty with
  | true => exact Outcome.refines_done h
  | false =>
    rw [if_neg (by decide), if_neg (by decide)]
    exact (h.flushMemTable hlz (hfit hm)).andThen
      (fun a => ({ a with
        activeMemtable := SkipList.empty
        manifest := { a.manifest with checkpointSeq := a.sequenceNumber } },
        [.walTruncated, .manifestSaved { a.manifest with checkpointSeq := a.sequenceNumber }]))
      fun e' hs _ => ⟨rfl, ⟨hs.l0, hs.l1, hs.l2⟩, rfl, .cons .walTruncated (.cons (.manifestSaved _) .nil)⟩

/-! ### Compactions -/

theorem Sound.sourceTables (h : e.Sound T) : ∀ level, ∀ t ∈ e.sourceTables level, t.reader.Sound T
  | .l0 => h.l0
  | .l1 => h.l1

theorem contents_sourceTables (e : LSMEngine) (lz : Lz4) (level : Level) :
    (e.contents lz).sourceTables level = (e.sourceTables level).map (·.contents lz) := by
  cases level <;> rfl

theorem names_contents (lz : Lz4) (ts : List OpenTable) : (ts.map (·.contents lz)).map (·.name) = ts.map (·.name) := by
  rw [List.map_map]
  rfl

theorem sound_pushed {ts : List OpenTable} (h : ∀ t ∈ ts, t.reader.Sound T) {f : FileName} {r : SSTableReader}
    (hr : r.Sound T) : ∀ t ∈ ts ++ [⟨f, r⟩], t.reader.Sound T := by
  intro t ht
  rcases List.mem_append.mp ht with ht | ht
  · exact h t ht
  · rw [List.mem_singleton.mp ht]
    exact hr

/-- The loop over sound tables has the turns for all entries. -/
theorem mergeTurns_sound {ts : List OpenTable} (h : ∀ t ∈ ts, t.reader.Sound T) :
    mergeTurns T (ts.map (·.reader)) =
      Keyed.total ((ts.map (·.contents T.lz)).map fun t => t.table.entries) := by
  unfold mergeTurns Keyed.total
  rw [List.map_map, List.map_map, List.map_map]
  refine congrArg List.sum (List.map_congr_left fun t ht => ?_)
  show (t.reader.forEach T.lz).1.length = _
  rw [(h t ht).walked]
  rfl

theorem estimatedEntries_sound {ts : List OpenTable} (h : ∀ t ∈ ts, t.reader.Sound T) :
    estimatedEntries (ts.map (·.reader)) =
      UInt64.ofNat ((ts.map (·.contents T.lz)).map fun t => t.table.entries.length % 2 ^ 32).sum := by
  unfold estimatedEntries
  rw [List.map_map, List.map_map]
  refine congrArg UInt64.ofNat (congrArg List.sum (List.map_congr_left fun t ht => ?_))
  exact (h t ht).counted

/-- The merge of sound tables comes to the file of the merged entries. -/
theorem merge_sound (hlz : T.lz.Lawful) {ts : List OpenTable} (h : ∀ t ∈ ts, t.reader.Sound T)
    (hfit : T.Fits ((ts.map (·.contents T.lz)).map fun t => t.table.entries.length % 2 ^ 32).sum
      (SSTable.mergeTables ((ts.map (·.contents T.lz)).map (·.table)))) (path : String) :
    ∃ merged data r,
      mergeLoop T.lz T.hash (mergeTurns T (ts.map (·.reader)))
        (mergeStart T.lz (estimatedEntries (ts.map (·.reader))) (ts.map (·.reader))) = .ok merged ∧
      merged.writer.finish T.lz = .ok data ∧ SSTableReader.load path data = .ok r ∧
      r.contents T.lz = SSTable.mergeTables ((ts.map (·.contents T.lz)).map (·.table)) ∧ r.Sound T := by
  obtain ⟨data, r, hwrite, hload, hcontents, hsound⟩ := hfit.written hlz path
  have hyields : List.Forall₂ (fun t r => Yields T.lz t (openCursor T.lz r))
      (((ts.map (·.contents T.lz)).map (·.table)).map SSTable.entries) (ts.map (·.reader)) := by
    rw [List.map_map, List.map_map, List.forall₂_map_left_iff, List.forall₂_map_right_iff]
    exact List.forall₂_same.mpr fun t ht => (h t ht).yields
  have hloop := mergeLoop_mergeTables T.hash (estimatedEntries (ts.map (·.reader))) hyields
  have hturns : Keyed.total (((ts.map (·.contents T.lz)).map (·.table)).map SSTable.entries) =
      mergeTurns T (ts.map (·.reader)) := by
    rw [mergeTurns_sound h, List.map_map]
    rfl
  rw [hturns] at hloop
  rw [← estimatedEntries_sound h, SSTableWriter.write] at hwrite
  cases hadd : (SSTableWriter.new (estimatedEntries (ts.map (·.reader)))).addAll T.lz T.hash
      (SSTable.mergeTables ((ts.map (·.contents T.lz)).map (·.table))).entries with
  | error x =>
    rw [hadd, error_bind] at hwrite
    cases hwrite
  | ok w =>
    rw [hadd, ok_bind] at hwrite
    rw [hadd] at hloop
    obtain ⟨merged, hmerged, rfl, -⟩ := hloop
    exact ⟨merged, data, r, hmerged, hwrite, hload, hcontents, hsound⟩

theorem Sound.mergeLevel (hlz : T.lz.Lawful) (h : e.Sound T) (level : Level)
    (hfit : (e.contents T.lz).MergeMeets T.Fits level) :
    (e.mergeLevel T level).Refines T ((e.contents T.lz).mergeLevel level) := by
  unfold Engine.MergeMeets at hfit
  rw [contents_sourceTables] at hfit
  have hmerged : (e.contents T.lz).merged level =
      ⟨level.outputName e.nextSstId,
        SSTable.mergeTables (((e.sourceTables level).map (·.contents T.lz)).map (·.table))⟩ := by
    rw [Engine.merged, contents_sourceTables]
    rfl
  rw [hmerged] at hfit
  obtain ⟨merged, data, r, hloop, hfinish, hload, hcontents, hsound⟩ :=
    merge_sound hlz (h.sourceTables level) hfit (T.path (level.outputName e.nextSstId))
  have hremoved : List.Forall₂ (FileEffect.Shows T) (((e.sourceTables level).map (·.name)).map .fileRemoved)
      (((e.sourceTables level).map (·.name)).map .fileRemoved) := by
    rw [List.forall₂_map_left_iff, List.forall₂_map_right_iff]
    exact List.forall₂_same.mpr fun f _ => .fileRemoved f
  unfold LSMEngine.mergeLevel Engine.mergeLevel
  dsimp only
  rw [hloop]
  dsimp only
  rw [hfinish]
  dsimp only
  rw [hload, contents_sourceTables, names_contents, ← hcontents]
  cases level with
  | l0 =>
    refine ⟨rfl, ⟨fun t ht => absurd ht List.not_mem_nil, sound_pushed h.l1 hsound, h.l2⟩, ?_,
      .cons (.tableWritten hload hsound) (.cons (.manifestSaved _) hremoved)⟩
    simp only [LSMEngine.contents, pushTable, clearSource, Engine.install, List.map_append]
    rfl
  | l1 =>
    refine ⟨rfl, ⟨h.l0, fun t ht => absurd ht List.not_mem_nil, sound_pushed h.l2 hsound⟩, ?_,
      .cons (.tableWritten hload hsound) (.cons (.manifestSaved _) hremoved)⟩
    simp only [LSMEngine.contents, pushTable, clearSource, Engine.install, List.map_append]
    rfl

theorem length_l0 (e : LSMEngine) (lz : Lz4) : (e.contents lz).l0Tables.length = e.l0Tables.length :=
  List.length_map _

theorem length_l1 (e : LSMEngine) (lz : Lz4) : (e.contents lz).l1Tables.length = e.l1Tables.length :=
  List.length_map _

theorem Sound.compactL0 (hlz : T.lz.Lawful) (h : e.Sound T) (hfit : (e.contents T.lz).CompactMeets T.Fits) :
    (e.compactL0 T).Refines T (e.contents T.lz).compactL0 := by
  unfold LSMEngine.compactL0 LSMEngine.compactLevel Engine.compactL0 Engine.compactLevel
  rw [length_l0]
  by_cases hlen : e.l0Tables.length < 2
  · rw [if_pos hlen, if_pos hlen]
    exact Outcome.refines_done h
  · rw [if_neg hlen, if_neg hlen]
    obtain ⟨hl0, hl1⟩ := hfit (by rw [length_l0]; omega)
    have hmerge := h.mergeLevel hlz .l0 hl0
    have hthen := hmerge.andThen
      (fun a => if L1_COMPACTION_THRESHOLD ≤ a.l1Tables.length then a.mergeLevel .l1 else (a, []))
      (f := fun e => if L1_COMPACTION_THRESHOLD ≤ e.l1Tables.length then e.mergeLevel T .l1 else .done e)
      (fun e' hs hc => by
        rw [length_l1]
        by_cases hfull : L1_COMPACTION_THRESHOLD ≤ e'.l1Tables.length
        · rw [if_pos hfull, if_pos hfull]
          refine hs.mergeLevel hlz .l1 ?_
          have hgrown : (e.contents T.lz).l1Tables.length + 1 = e'.l1Tables.length := by
            rw [← length_l1 e' T.lz, hc]
            simp [Engine.mergeLevel, Engine.install]
          rw [hc]
          exact hl1 (hgrown ▸ hfull)
        · rw [if_neg hfull, if_neg hfull]
          exact Outcome.refines_done hs)
    refine Eq.mp (congrArg (Outcome.Refines T _) ?_) hthen
    dsimp only
    split
    · rfl
    · rw [List.append_nil]

theorem Sound.maybeCompact (hlz : T.lz.Lawful) (h : e.Sound T) (hfit : (e.contents T.lz).MaybeCompactMeets T.Fits) :
    (e.maybeCompact T).Refines T (e.contents T.lz).maybeCompact := by
  unfold Engine.MaybeCompactMeets at hfit
  unfold LSMEngine.maybeCompact Engine.maybeCompact
  rw [length_l0] at hfit ⊢
  by_cases hfull : L0_COMPACTION_THRESHOLD ≤ e.l0Tables.length
  · rw [if_pos hfull, if_pos hfull]
    exact h.compactL0 hlz (hfit hfull)
  · rw [if_neg hfull, if_neg hfull]
    exact Outcome.refines_done h

theorem Sound.forceCompact (hlz : T.lz.Lawful) (h : e.Sound T) (hfit : (e.contents T.lz).CompactMeets T.Fits) :
    (e.forceCompact T).Refines T (e.contents T.lz).forceCompact := by
  unfold LSMEngine.forceCompact Engine.forceCompact
  rw [length_l0]
  by_cases hfull : 2 ≤ e.l0Tables.length
  · rw [if_pos hfull, if_pos hfull]
    exact h.compactL0 hlz hfit
  · rw [if_neg hfull, if_neg hfull]
    exact Outcome.refines_done h

/-! ### Writes -/

/-- After a flush L0 is compacted if it has reached its limit. -/
theorem compactFlushed (hlz : T.lz.Lawful) {a : Engine} {e : LSMEngine} (h : e.Sound T)
    (hflushed : e.contents T.lz = a.flushed) {w : List FileEffect} {w' : List Effect}
    (hw : List.Forall₂ (FileEffect.Shows T) w w') (hfit : a.flushed.MaybeCompactMeets T.Fits) :
    ((Outcome.mk e w none).andThen (LSMEngine.maybeCompact T)).Refines T
      (a.flushed.maybeCompact.1, w' ++ a.flushed.maybeCompact.2) :=
  Outcome.Refines.andThen (p := (a.flushed, w')) ⟨rfl, h, hflushed, hw⟩ Engine.maybeCompact
    fun _ hs hc => hs.maybeCompact hlz (hc ▸ hfit)

theorem Sound.flushAndCompact (hlz : T.lz.Lawful) (h : e.Sound T) (hfit : (e.contents T.lz).FlushCompactMeets T.Fits) :
    (e.flushAndCompact T).Refines T (e.contents T.lz).flushAndCompact := by
  obtain ⟨hflush, hcompact⟩ := hfit
  have hswapped : ({ e with
      immutableMemtable := some e.activeMemtable
      activeMemtable := SkipList.empty } : LSMEngine).Sound T := ⟨h.l0, h.l1, h.l2⟩
  have hfirst := hswapped.flushMemTable hlz (m := e.activeMemtable) hflush
  unfold LSMEngine.flushAndCompact
  dsimp only
  rw [hfirst.thrown, Engine.flushAndCompact_eq]
  refine hfirst.andThen (fun _ => ((e.contents T.lz).flushed.maybeCompact.1,
    [.manifestSaved (e.contents T.lz).flushed.manifest, .walTruncated] ++ (e.contents T.lz).flushed.maybeCompact.2))
    fun e' hs hc => ?_
  have hflushed : ({ e' with immutableMemtable := none, manifest := e'.checkpointed } : LSMEngine).contents T.lz =
      (e.contents T.lz).flushed := by
    show ({ e'.contents T.lz with
      immutableMemtable := none
      manifest := { (e'.contents T.lz).manifest with checkpointSeq := (e'.contents T.lz).sequenceNumber } } :
        Engine) = _
    rw [hc]
    rfl
  have hman : e'.checkpointed = (e.contents T.lz).flushed.manifest := congrArg Engine.manifest hflushed
  have hsaved : ({ e' with immutableMemtable := none, manifest := e'.checkpointed } : LSMEngine).Sound T :=
    ⟨hs.l0, hs.l1, hs.l2⟩
  refine compactFlushed hlz hsaved hflushed (.cons ?_ (.cons .walTruncated .nil)) hcompact
  rw [hman]
  exact .manifestSaved _

theorem Sound.putRaw (hlz : T.lz.Lawful) (h : e.Sound T) {k : Key} {data : Bytes} {full : Bool} {clk : Wal.Clock}
    (hfit : (e.contents T.lz).Meets T.Fits (.putRaw k data full clk)) :
    (e.putRaw T k data full clk).Refines T ((e.contents T.lz).putRaw k data full clk) := by
  unfold LSMEngine.putRaw Engine.putRaw
  dsimp only
  have hput : (Outcome.mk
      { e with sequenceNumber := e.sequenceNumber + 1, activeMemtable := e.activeMemtable.putRaw k data }
      [.walAppended (Wal.putRecord (e.sequenceNumber + 1) k data) clk] none).Refines T
      ((e.contents T.lz).afterPut k data, [.walAppended (Wal.putRecord (e.sequenceNumber + 1) k data) clk]) :=
    ⟨rfl, ⟨h.l0, h.l1, h.l2⟩, rfl, .cons (.walAppended _ _) .nil⟩
  cases full with
  | false =>
    exact hput.andThen (fun a => (a, [])) fun e' hs _ => Outcome.refines_done hs
  | true =>
    exact hput.andThen Engine.flushAndCompact fun e' hs hc => hs.flushAndCompact hlz (hc ▸ hfit rfl)

theorem Sound.remove (h : e.Sound T) (k : Key) (clk : Wal.Clock) :
    (e.remove k clk).Refines T ((e.contents T.lz).remove k clk) :=
  ⟨rfl, ⟨h.l0, h.l1, h.l2⟩, rfl, .cons (.walAppended _ _) .nil⟩

theorem Sound.lazyFlush (hlz : T.lz.Lawful) (h : e.Sound T) (hfit : (e.contents T.lz).Meets T.Fits .lazyFlush) :
    (e.lazyFlush T).Refines T (e.contents T.lz).lazyFlush := by
  unfold LSMEngine.lazyFlush
  cases hm : e.activeMemtable.isEmpty with
  | true =>
    rw [if_pos rfl, Engine.lazyFlush_empty hm]
    exact Outcome.refines_done h
  | false =>
    obtain ⟨hflush, hcompact⟩ := hfit hm
    have hthen := (h.flushLocked hlz fun _ => hflush).andThen Engine.maybeCompact (f := LSMEngine.maybeCompact T)
      fun e' hs hc => hs.maybeCompact hlz (hc ▸ hcompact)
    rw [if_neg (by decide), Engine.lazyFlush_eq _ hm]
    exact ⟨rfl, hthen.sound, hthen.contents, hthen.effects⟩

/-- **An operation that fits does to the engine's contents what it does to the
engine.** -/
theorem exec_refines (hlz : T.lz.Lawful) (h : e.Sound T) {op : Op} (hfit : (e.contents T.lz).Meets T.Fits op) :
    (e.exec T op).Refines T ((e.contents T.lz).exec op) := by
  cases op with
  | putRaw k data full clk => exact h.putRaw hlz hfit
  | remove k clk => exact h.remove k clk
  | flush => exact h.flushLocked hlz hfit
  | lazyFlush => exact h.lazyFlush hlz hfit
  | maybeCompact => exact h.maybeCompact hlz hfit
  | forceCompact => exact h.forceCompact hlz hfit

/-! ### Opening -/

variable {d : Directory}

theorem nextIdAfter_contents (lz : Lz4) (ts : List OpenTable) :
    Lsm.nextIdAfter (ts.map (·.contents lz)) = nextIdAfter ts := by
  unfold Lsm.nextIdAfter nextIdAfter
  rw [List.foldl_map]
  rfl

theorem loadTables_refines (h : d.Sound T) :
    (Outcome.mk (loadTables T d).1 (loadTables T d).2 none).Refines T (Engine.loadTables (d.contents T)) := by
  unfold loadTables Engine.loadTables
  rw [show (d.contents T).manifest = d.manifest from rfl]
  cases d.manifest with
  | some m =>
    refine ⟨rfl, ⟨h.sound_load, h.sound_load, h.sound_load⟩, ?_, .nil⟩
    simp only [LSMEngine.contents, h.load]
  | none =>
    refine ⟨rfl, ⟨h.sound_load, h.sound_load, h.sound_load⟩, ?_, .cons ?_ .nil⟩
    · dsimp only [LSMEngine.contents]
      rewrite [← h.load_scan, ← h.load_scan, ← h.load_scan, nextIdAfter_contents, names_contents, names_contents, names_contents]
      rfl
    · simp only [← h.load_scan, nextIdAfter_contents, names_contents]
      exact .manifestSaved _

/-- The engine whose memtable the log has filled. -/
theorem replayed_refines (E : Env) (h : d.Sound T) :
    (Outcome.mk ((loadTables T d).1.replayWal E d) (loadTables T d).2 none).Refines T
      ((Engine.loadTables (d.contents T)).1.replayWal E (d.contents T), (Engine.loadTables (d.contents T)).2) := by
  have hl := loadTables_refines h
  refine ⟨rfl, ⟨hl.sound.l0, hl.sound.l1, hl.sound.l2⟩, ?_, hl.effects⟩
  rw [← hl.contents]
  rfl

theorem Sound.recoverFlush (hlz : T.lz.Lawful) (h : e.Sound T) (hi : e.immutableMemtable = none)
    (hfit : e.activeMemtable.isEmpty = false → (e.contents T.lz).FlushCompactMeets T.Fits) :
    (e.recoverFlush T).Refines T (e.contents T.lz).recoverFlush := by
  unfold LSMEngine.recoverFlush
  cases hm : e.activeMemtable.isEmpty with
  | true =>
    rw [if_pos rfl, Engine.recoverFlush_empty hm]
    exact Outcome.refines_done h
  | false =>
    obtain ⟨hflush, hcompact⟩ := hfit hm
    rw [if_neg (by decide), Engine.recoverFlush_eq hi hm]
    refine (h.flushMemTable hlz (m := e.activeMemtable) hflush).andThen
      (fun _ => ((e.contents T.lz).flushed.maybeCompact.1,
        [.walTruncated, .manifestSaved (e.contents T.lz).flushed.manifest] ++
          (e.contents T.lz).flushed.maybeCompact.2)) fun e' hs hc => ?_
    have hflushed :
        ({ e' with activeMemtable := SkipList.empty, manifest := e'.checkpointed } : LSMEngine).contents T.lz =
          (e.contents T.lz).flushed := by
      show ({ e'.contents T.lz with
        activeMemtable := SkipList.empty
        manifest := { (e'.contents T.lz).manifest with checkpointSeq := (e'.contents T.lz).sequenceNumber } } :
          Engine) = _
      rw [hc]
      unfold Engine.flushed
      rw [← show (e.contents T.lz).immutableMemtable = none from hi]
      rfl
    have hman : e'.checkpointed = (e.contents T.lz).flushed.manifest := congrArg Engine.manifest hflushed
    have hsaved : ({ e' with activeMemtable := SkipList.empty, manifest := e'.checkpointed } : LSMEngine).Sound T :=
      ⟨hs.l0, hs.l1, hs.l2⟩
    refine compactFlushed hlz hsaved hflushed (.cons .walTruncated (.cons ?_ .nil)) hcompact
    rw [hman]
    exact .manifestSaved _

/-- **Opening a directory whose recovery fits opens its contents.** -/
theorem construct_refines (hlz : T.lz.Lawful) (E : Env) (h : d.Sound T) (hfit : RecoveryMeets T.Fits E (d.contents T)) :
    (construct T E d).Refines T (Engine.construct E (d.contents T)) := by
  unfold construct
  refine (replayed_refines E h).andThen Engine.recoverFlush fun e' hs hc => hs.recoverFlush hlz ?_ fun hm => ?_
  · show (e'.contents T.lz).immutableMemtable = none
    rw [hc]
    show (Engine.loadTables (d.contents T)).1.immutableMemtable = none
    unfold Engine.loadTables
    split <;> rfl
  · rw [hc]
    refine hfit ?_
    have hmem : e'.activeMemtable =
        ((Engine.loadTables (d.contents T)).1.replayWal E (d.contents T)).activeMemtable :=
      congrArg Engine.activeMemtable hc
    rwa [← hmem]

end LSMEngine

/-! ### Runs -/

section Runs

variable {T : TableEnv} {E : Env}

theorem LSMProcess.Sound.step (hlz : T.lz.Lawful) {p : LSMProcess} (h : p.Sound T) {ev : Event}
    (hfit : ev.Meets T.Fits E (p.contents T)) :
    (p.step T E ev).Sound T ∧ (p.step T E ev).contents T = (p.contents T).step E ev := by
  cases p with
  | running e d =>
    obtain ⟨he, hd⟩ := h
    cases ev with
    | exec op =>
      have ho := LSMEngine.exec_refines hlz he hfit
      obtain ⟨hs, hc⟩ := hd.applyAll E ho.effects
      refine ⟨⟨ho.sound, hs⟩, ?_⟩
      rw [LSMProcess.step, contents_running, ho.contents, hc]
      rfl
    | close =>
      have ho := he.flushLocked hlz hfit
      obtain ⟨hs, hc⟩ := hd.applyAll E ho.effects
      refine ⟨hs, ?_⟩
      rw [LSMProcess.step, contents_stopped, hc]
      rfl
    | crash op n =>
      have ho := LSMEngine.exec_refines hlz he hfit
      obtain ⟨hs, hc⟩ := hd.applyAll E (List.forall₂_take n ho.effects)
      refine ⟨hs, ?_⟩
      rw [LSMProcess.step, contents_stopped, hc]
      rfl
    | construct => exact ⟨⟨he, hd⟩, rfl⟩
    | crashConstruct n => exact ⟨⟨he, hd⟩, rfl⟩
  | stopped d =>
    cases ev with
    | construct =>
      have ho := LSMEngine.construct_refines hlz E h hfit
      obtain ⟨hs, hc⟩ := Directory.Sound.applyAll E h ho.effects
      have hstep : (LSMProcess.stopped d).step T E .construct = .running (LSMEngine.construct T E d).engine
          (d.applyAll E (LSMEngine.construct T E d).effects) := by
        simp only [LSMProcess.step, ho.thrown]
      rw [hstep]
      refine ⟨⟨ho.sound, hs⟩, ?_⟩
      rw [contents_running, ho.contents, hc]
      rfl
    | crashConstruct n =>
      have ho := LSMEngine.construct_refines hlz E h hfit
      obtain ⟨hs, hc⟩ := Directory.Sound.applyAll E h (List.forall₂_take n ho.effects)
      refine ⟨hs, ?_⟩
      rw [LSMProcess.step, contents_stopped, hc]
      rfl
    | exec op => exact ⟨h, rfl⟩
    | close => exact ⟨h, rfl⟩
    | crash op n => exact ⟨h, rfl⟩

/-- The step's tables fit. -/
def LSMProcess.Fits (T : TableEnv) (E : Env) (p : LSMProcess) (ev : Event) : Prop := ev.Meets T.Fits E (p.contents T)

/-- **A run whose steps all fit is a run of its contents**, and its tables are
sound. -/
theorem LSMProcess.contents_run (hlz : T.lz.Lawful) {p : LSMProcess} (h : p.Sound T) {evs : List Event}
    (hfit : Along (LSMProcess.step T E) (LSMProcess.Fits T E) p evs) :
    (run (LSMProcess.step T E) p evs).Sound T ∧
      (run (LSMProcess.step T E) p evs).contents T = run (Process.step E) (p.contents T) evs :=
  Run.run_simulates (fun _ _ h hfit => h.step hlz hfit) h hfit

/-- What the steps of the contents meet, the steps of the run do. -/
theorem LSMProcess.along_contents (hlz : T.lz.Lawful) (P : Process → Event → Prop) {p : LSMProcess} (h : p.Sound T)
    {evs : List Event} (hfit : Along (LSMProcess.step T E) (LSMProcess.Fits T E) p evs) :
    Along (LSMProcess.step T E) (fun p ev => P (p.contents T) ev) p evs ↔
      Along (Process.step E) P (p.contents T) evs :=
  Run.along_simulates (fun _ _ h hfit => h.step hlz hfit) P h hfit

/-- The steps of a run fit if those of its contents are of small tables. -/
theorem LSMProcess.along_fits (hlz : T.lz.Lawful) {p : LSMProcess} (h : p.Sound T) {evs : List Event}
    (hsmall : Along (Process.step E) (fun p ev => ev.Meets (fun n t => t.Small n) E p) (p.contents T) evs) :
    Along (LSMProcess.step T E) (LSMProcess.Fits T E) p evs :=
  Run.along_of_image (σ := LSMProcess.contents T) (fun _ _ h hfit => LSMProcess.Sound.step hlz h hfit) h
    (hsmall.imp fun _ _ hs => hs.mono fun _ _ ht => ht.fits)

/-- An engine that runs. -/
theorem LSMProcess.running_of_contents {p : LSMProcess} {a : Engine} {d' : Disk} (h : p.contents T = .running a d') :
    ∃ e d, p = .running e d ∧ e.contents T.lz = a ∧ d.contents T = d' := by
  cases p with
  | running e d =>
    obtain ⟨rfl, rfl⟩ := Process.running.inj h
    exact ⟨e, d, rfl, rfl, rfl⟩
  | stopped d => cases h

theorem LSMProcess.stopped_of_contents {p : LSMProcess} {d' : Disk} (h : p.contents T = .stopped d') :
    ∃ d, p = .stopped d ∧ d.contents T = d' := by
  cases p with
  | running e d => cases h
  | stopped d =>
    obtain rfl := Process.stopped.inj h
    exact ⟨d, rfl, rfl⟩

end Runs

end Lsm
end Amind
