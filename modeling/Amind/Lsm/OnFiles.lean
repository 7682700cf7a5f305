/-
# What holds of the engine over files

Lookups after a compaction, after a remove, after a reopen and after a crash,
for the engine that reads and writes table files. Where all the tables a run
writes fit (`LSMProcess.Fits`, no block above 64 MiB), each of these is what it
is for the contents, and nothing is thrown.

The conditions are on the contents of the state before the step:
`CompactSafe` for a compaction, `RemovesHidden` for a remove, `CloseSafe` for a
close, `Event.Safe` for what is recovered after a crash.
-/
import Amind.Core.Crc32
import Amind.Lsm.Refinement
import Amind.Lsm.TornTail

namespace Amind
namespace Lsm

open Run (run Along)
open Wal (Env View WalRecord)

variable {T : TableEnv} {E : Env}

/-- Table files for examples. -/
def sampleTables : TableEnv := ⟨literals, xxh64, "lsm"⟩

def sampleEnv : Env := Env.ofCrc crc32c

/-- A run of small tables, and its contents. -/
theorem sample_run {p : LSMProcess} (h : p.Sound sampleTables) (evs : List Event)
    (hsmall : Along (Process.step sampleEnv) (fun p ev => ev.Meets (fun n t => t.Small n) sampleEnv p)
      (p.contents sampleTables) evs) :
    Along (LSMProcess.step sampleTables sampleEnv) (LSMProcess.Fits sampleTables sampleEnv) p evs ∧
      (run (LSMProcess.step sampleTables sampleEnv) p evs).Sound sampleTables ∧
      (run (LSMProcess.step sampleTables sampleEnv) p evs).contents sampleTables =
        run (Process.step sampleEnv) (p.contents sampleTables) evs := by
  have hfit := LSMProcess.along_fits (T := sampleTables) lawful_literals h hsmall
  exact ⟨hfit, LSMProcess.contents_run lawful_literals h hfit⟩

theorem sound_sampleFresh : LSMProcess.fresh.Sound sampleTables := LSMProcess.sound_fresh _

/-! ### Compactions -/

/-- **In every state an engine reaches, a compaction of L0 with its cascade
leaves the lookup of a key unchanged exactly when the key is safe.** The full
memtable and the flush thread compact the engine of a flush, which is a state
reached as well. -/
theorem get_compactLevel_iff (hlz : T.lz.Lawful) (evs : List Event)
    (hfit : Along (LSMProcess.step T E) (LSMProcess.Fits T E) .fresh evs) (e : LSMEngine) (d : Directory)
    (h : run (LSMProcess.step T E) .fresh evs = .running e d) (hmerge : (e.contents T.lz).CompactMeets T.Fits)
    (k : Key) :
    (e.compactLevel T .l0).thrown = none ∧
      ((e.compactLevel T .l0).engine.get T k = e.get T k ↔ (e.contents T.lz).CompactSafe k) := by
  obtain ⟨hs, hc⟩ := LSMProcess.contents_run hlz (LSMProcess.sound_fresh T) hfit
  rw [h] at hs hc
  have hlayout := Process.layout_run E evs
  rw [← contents_fresh T, ← hc] at hlayout
  have hcompact := hs.1.compactL0 hlz hmerge
  refine ⟨hcompact.thrown, ?_⟩
  show (e.compactL0 T).engine.get T k = _ ↔ _
  rw [hcompact.sound.get, hs.1.get, hcompact.contents, Except.ok.injEq]
  exact Layout.get_compactL0_iff hlayout k

/-- Key 7 is put, flushed and compacted to L1, then put again and flushed;
every L0 gets a second table of another key. -/
def overwritten : List Event :=
  [.construct, .exec (.putRaw 7 [1] false ⟨0, 0⟩), .exec .flush, .exec (.putRaw 8 [1] false ⟨0, 0⟩),
    .exec .flush, .exec .forceCompact, .exec (.putRaw 7 [2] false ⟨0, 0⟩), .exec .flush,
    .exec (.putRaw 9 [1] false ⟨0, 0⟩), .exec .flush]

theorem get_compactLevel_overwritten :
    ∃ e d, run (LSMProcess.step sampleTables sampleEnv) .fresh overwritten = .running e d ∧
      (e.compactLevel sampleTables .l0).engine.get sampleTables 8 = e.get sampleTables 8 := by
  obtain ⟨hfit, hs, hc⟩ := sample_run sound_sampleFresh overwritten (by decide)
  obtain ⟨e, d, hrun, he, -⟩ := LSMProcess.running_of_contents (hc.trans rfl)
  have hmerge : (e.contents sampleTables.lz).CompactMeets sampleTables.Fits := by
    rw [he]
    exact Engine.CompactMeets.mono (fun _ _ ht => SSTable.Small.fits ht) (by decide)
  refine ⟨e, d, hrun, ((get_compactLevel_iff lawful_literals overwritten hfit e d hrun hmerge 8).2).mpr ?_⟩
  rw [he]
  decide

/-- The older value of key 7, already in L1, is found before the newer one. -/
theorem get_compactLevel_older :
    ∃ e d, run (LSMProcess.step sampleTables sampleEnv) .fresh overwritten = .running e d ∧
      e.get sampleTables 7 = .ok (some [2]) ∧
      (e.compactLevel sampleTables .l0).engine.get sampleTables 7 = .ok (some [1]) := by
  obtain ⟨-, hs, hc⟩ := sample_run sound_sampleFresh overwritten (by decide)
  obtain ⟨e, d, hrun, he, -⟩ := LSMProcess.running_of_contents (hc.trans rfl)
  rw [hrun] at hs
  have hcompact := hs.1.compactL0 lawful_literals (by
    rw [he]
    exact Engine.CompactMeets.mono (fun _ _ ht => SSTable.Small.fits ht) (by decide))
  refine ⟨e, d, hrun, ?_, ?_⟩
  · rw [hs.1.get, he]
    decide
  · show (e.compactL0 sampleTables).engine.get sampleTables 7 = _
    rw [hcompact.sound.get, hcompact.contents, he]
    decide

/-! ### Removes -/

namespace LSMEngine

/-- The engine after an operation. -/
def next (T : TableEnv) (e : LSMEngine) (op : Op) : LSMEngine := (e.exec T op).engine

/-- A new engine. -/
def fresh (T : TableEnv) (E : Env) : LSMEngine := (construct T E Directory.empty).engine

theorem sound_fresh (hlz : T.lz.Lawful) : (fresh T E).Sound T ∧ (fresh T E).contents T.lz = Engine.fresh E := by
  have hmem : RecoveryMeets T.Fits E (Directory.empty.contents T) := by
    intro hm
    cases hm
  have ho := construct_refines hlz E (LSMProcess.sound_fresh T) hmem
  exact ⟨ho.sound, ho.contents⟩

theorem next_refines (hlz : T.lz.Lawful) (e : LSMEngine) (op : Op) (h : e.Sound T)
    (hfit : (e.contents T.lz).Meets T.Fits op) :
    (next T e op).Sound T ∧ (next T e op).contents T.lz = (e.contents T.lz).next op := by
  have ho := exec_refines hlz h hfit
  exact ⟨ho.sound, ho.contents⟩

/-- **A run of puts, removes and flushes answers as the map after each of its
steps exactly when no remove meets a value of its key in the tables.** -/
theorem get_eq_lastWrite_iff (hlz : T.lz.Lawful) (ops : List Op)
    (hu : Along (next T) (fun e op => (e.contents T.lz).Uncompacted op) (fresh T E) ops)
    (hfit : Along (next T) (fun e op => (e.contents T.lz).Meets T.Fits op) (fresh T E) ops) :
    (∀ pre, pre <+: ops → ∀ k, (run (next T) (fresh T E) pre).get T k = .ok (lastWrite pre k)) ↔
      Along (next T) (fun e op => (e.contents T.lz).RemovesHidden op) (fresh T E) ops := by
  obtain ⟨hs, hc⟩ := sound_fresh (E := E) hlz
  have hstep := next_refines (T := T) hlz
  have hrun : ∀ pre, pre <+: ops → ∀ k,
      (run (next T) (fresh T E) pre).get T k = .ok ((run Engine.next (Engine.fresh E) pre).get k) := by
    rintro pre ⟨post, rfl⟩ k
    obtain ⟨hs', hc'⟩ := Run.run_simulates (σ := fun e => e.contents T.lz) hstep hs (Run.along_append.mp hfit).1
    rw [hs'.get, hc', hc]
  rw [Run.along_simulates (σ := fun e => e.contents T.lz) hstep Engine.RemovesHidden hs hfit, hc]
  rw [Run.along_simulates (σ := fun e => e.contents T.lz) hstep Engine.Uncompacted hs hfit, hc] at hu
  refine Iff.trans ?_ (Engine.lastWrite_iff E ops hu)
  refine forall_congr' fun pre => forall_congr' fun hpre => forall_congr' fun k => ?_
  rw [hrun pre hpre k, Except.ok.injEq]

/-- A put of key 7, removed before the flush, and a put of key 8. -/
def removedBeforeFlush : List Op :=
  [.putRaw 7 [1] false ⟨0, 0⟩, .remove 7 ⟨0, 0⟩, .flush, .putRaw 8 [2] false ⟨0, 0⟩]

/-- A run of small tables on a new engine, and its contents. -/
theorem sample_ops (ops : List Op)
    (hsmall : Along Engine.next (fun e op => e.Meets (fun n t => t.Small n) op) (Engine.fresh sampleEnv) ops) :
    Along (next sampleTables) (fun e op => (e.contents sampleTables.lz).Meets sampleTables.Fits op)
        (fresh sampleTables sampleEnv) ops ∧
      ∀ P : Engine → Op → Prop, Along Engine.next P (Engine.fresh sampleEnv) ops →
        Along (next sampleTables) (fun e op => P (e.contents sampleTables.lz) op) (fresh sampleTables sampleEnv) ops := by
  have hlz : sampleTables.lz.Lawful := lawful_literals
  obtain ⟨hs, hc⟩ := sound_fresh (E := sampleEnv) hlz
  have hmeets : Along Engine.next (fun e op => e.Meets sampleTables.Fits op)
      ((fresh sampleTables sampleEnv).contents sampleTables.lz) ops := by
    rw [hc]
    exact hsmall.imp fun _ _ h => h.mono fun _ _ ht => ht.fits
  have hstep := next_refines (T := sampleTables) hlz
  have hfit := Run.along_of_image (σ := fun e => e.contents sampleTables.lz) hstep hs hmeets
  refine ⟨hfit, fun P hP => ?_⟩
  rw [Run.along_simulates (σ := fun e => e.contents sampleTables.lz) hstep P hs hfit, hc]
  exact hP

theorem get_eq_lastWrite_removedBeforeFlush :
    (run (next sampleTables) (fresh sampleTables sampleEnv) removedBeforeFlush).get sampleTables 7 =
        .ok (lastWrite removedBeforeFlush 7) ∧
      (run (next sampleTables) (fresh sampleTables sampleEnv) removedBeforeFlush).get sampleTables 8 =
        .ok (lastWrite removedBeforeFlush 8) := by
  obtain ⟨hfit, hall⟩ := sample_ops removedBeforeFlush (by decide)
  have h := (get_eq_lastWrite_iff lawful_literals removedBeforeFlush (hall Engine.Uncompacted (by decide)) hfit).mpr
    (hall Engine.RemovesHidden (by decide)) _ (List.prefix_refl _)
  exact ⟨h 7, h 8⟩

/-- A put of key 7 flushed and then removed. -/
def removedAfterFlush : List Op := [.putRaw 7 [1] false ⟨0, 0⟩, .flush, .remove 7 ⟨0, 0⟩]

/-- The remove leaves the flushed value in place. -/
theorem get_after_remove :
    Along (next sampleTables) (fun e op => (e.contents sampleTables.lz).Uncompacted op) (fresh sampleTables sampleEnv)
        removedAfterFlush ∧
      lastWrite removedAfterFlush 7 = none ∧
      (run (next sampleTables) (fresh sampleTables sampleEnv) removedAfterFlush).get sampleTables 7 =
        .ok (some [1]) := by
  have hlz : sampleTables.lz.Lawful := lawful_literals
  obtain ⟨hfit, hall⟩ := sample_ops removedAfterFlush (by decide)
  obtain ⟨hs, hc⟩ := sound_fresh (E := sampleEnv) hlz
  obtain ⟨hs', hc'⟩ := Run.run_simulates (σ := fun e => e.contents sampleTables.lz) (next_refines (T := sampleTables) hlz) hs hfit
  refine ⟨hall Engine.Uncompacted (by decide), by decide, ?_⟩
  rw [hs'.get, hc', hc]
  decide

end LSMEngine

/-! ### Closing and reopening -/

/-- The outcome of opening the directory that a closed engine leaves. -/
def LSMEngine.reopened (T : TableEnv) (E : Env) (e : LSMEngine) (d : Directory) : Outcome :=
  construct T E (d.applyAll E (e.flushLocked T).effects)

/-- **In every state an engine reaches, a close and a reopen leave the lookup
of a key unchanged exactly when the key is safe.** -/
theorem get_reopened_iff (hlz : T.lz.Lawful) (evs : List Event) (hN : evs.length < 2 ^ 64)
    (hfit : Along (LSMProcess.step T E) (LSMProcess.Fits T E) .fresh (evs ++ [.close, .construct])) (e : LSMEngine)
    (d : Directory) (h : run (LSMProcess.step T E) .fresh evs = .running e d) (k : Key) :
    (e.reopened T E d).thrown = none ∧
      ((e.reopened T E d).engine.get T k = e.get T k ↔ CloseSafe E (e.contents T.lz) (d.contents T) k) := by
  obtain ⟨hfirst, hlast⟩ := Run.along_append.mp hfit
  obtain ⟨hs, hc⟩ := LSMProcess.contents_run hlz (LSMProcess.sound_fresh T) hfirst
  rw [h] at hs hc hlast
  obtain ⟨hclose, hopen, -⟩ := hlast
  have ht := Process.tracked_run E evs hN
  rw [← contents_fresh T, ← hc] at ht
  have hflush := hs.1.flushLocked hlz hclose
  obtain ⟨hsd, hcd⟩ := hs.2.applyAll E hflush.effects
  have hreopen := LSMEngine.construct_refines hlz E hsd hopen
  refine ⟨hreopen.thrown, ?_⟩
  show (LSMEngine.construct T E _).engine.get T k = _ ↔ _
  rw [hreopen.sound.get, hs.1.get, hreopen.contents, hcd, Except.ok.injEq]
  exact ht.2.reopens_iff ht.1 k

theorem get_reopened_overwritten :
    ∃ e d, run (LSMProcess.step sampleTables sampleEnv) .fresh (overwritten ++ [.exec .forceCompact]) = .running e d ∧
      (e.reopened sampleTables sampleEnv d).engine.get sampleTables 8 = e.get sampleTables 8 := by
  obtain ⟨hfit, -, -⟩ := sample_run sound_sampleFresh ((overwritten ++ [.exec .forceCompact]) ++
    [.close, .construct]) (by decide)
  obtain ⟨-, -, hc⟩ := sample_run sound_sampleFresh (overwritten ++ [.exec .forceCompact]) (by decide)
  obtain ⟨e, d, hrun, he, hd⟩ := LSMProcess.running_of_contents (hc.trans rfl)
  refine ⟨e, d, hrun, (get_reopened_iff lawful_literals (overwritten ++ [.exec .forceCompact]) (by decide) hfit e d hrun
    8).2.mpr ?_⟩
  rw [he, hd]
  decide

/-- The compacted tables change places. -/
theorem get_reopened_newer :
    ∃ e d, run (LSMProcess.step sampleTables sampleEnv) .fresh (overwritten ++ [.exec .forceCompact]) = .running e d ∧
      e.get sampleTables 7 = .ok (some [1]) ∧
      (e.reopened sampleTables sampleEnv d).engine.get sampleTables 7 = .ok (some [2]) := by
  have hlz : sampleTables.lz.Lawful := lawful_literals
  obtain ⟨hfit, -, -⟩ := sample_run sound_sampleFresh ((overwritten ++ [.exec .forceCompact]) ++
    [.close, .construct]) (by decide)
  obtain ⟨-, hs, hc⟩ := sample_run sound_sampleFresh (overwritten ++ [.exec .forceCompact]) (by decide)
  obtain ⟨e, d, hrun, he, hd⟩ := LSMProcess.running_of_contents (hc.trans rfl)
  have hlast := (Run.along_append.mp hfit).2
  rw [hrun] at hs hlast
  have hflush := hs.1.flushLocked hlz hlast.1
  obtain ⟨hsd, hcd⟩ := hs.2.applyAll sampleEnv hflush.effects
  have hreopen := LSMEngine.construct_refines hlz sampleEnv hsd hlast.2.1
  refine ⟨e, d, hrun, ?_, ?_⟩
  · rw [hs.1.get, he]
    decide
  · show (LSMEngine.construct sampleTables sampleEnv _).engine.get sampleTables 7 = _
    rw [hreopen.sound.get, hreopen.contents, hcd, he, hd]
    decide

/-! ### Crashes -/

namespace LSMProcess

/-- The step loses no version of the contents by other ways, and no crash tears
a flush. -/
def Safe (T : TableEnv) (E : Env) (p : LSMProcess) (ev : Event) : Prop := ev.Safe E (p.contents T)

/-- The acknowledged writes after a run from `p`. -/
def acked (T : TableEnv) (E : Env) : LSMProcess → (Key → Option Bytes) → List Event → Key → Option Bytes
  | _, s, [] => s
  | p, s, ev :: evs => acked T E (p.step T E ev) (ack s (p.contents T) ev) evs

theorem acked_contents (hlz : T.lz.Lawful) : ∀ {evs : List Event} {p : LSMProcess} (s : Key → Option Bytes),
    p.Sound T → Along (step T E) (Fits T E) p evs → acked T E p s evs = Lsm.acked E (p.contents T) s evs
  | [], _, _, _, _ => rfl
  | ev :: evs, p, s, h, hfit => by
    obtain ⟨hs, hc⟩ := Sound.step hlz h hfit.1
    have ih := acked_contents hlz (ack s (p.contents T) ev) hs hfit.2
    rw [hc] at ih
    exact ih

end LSMProcess

/-- **Every acknowledged put is found after a crash**, in every run whose steps
fit and are safe: wherever the run left the directory, the engine opened on it
answers the last acknowledged put of a key. -/
theorem acked_puts_recovered (hlz : T.lz.Lawful) (evs : List Event)
    (hfit : Along (LSMProcess.step T E) (LSMProcess.Fits T E) .fresh (evs ++ [.construct]))
    (hsafe : Along (LSMProcess.step T E) (LSMProcess.Safe T E) .fresh evs) (d : Directory)
    (hd : run (LSMProcess.step T E) .fresh evs = .stopped d) (ho : ConstructSafe E (d.contents T))
    (hr : RecoverySafe E (d.contents T)) (k : Key) (x : Bytes)
    (hk : LSMProcess.acked T E .fresh (fun _ => none) evs k = some x) (hx : x ≠ []) :
    (LSMEngine.construct T E d).thrown = none ∧ (LSMEngine.construct T E d).engine.get T k = .ok (some x) := by
  obtain ⟨hfirst, hopen⟩ := Run.along_append.mp hfit
  have hfresh := LSMProcess.sound_fresh T
  obtain ⟨hs, hc⟩ := LSMProcess.contents_run hlz hfresh hfirst
  rw [hd] at hs hc hopen
  have hconstruct := LSMEngine.construct_refines hlz E hs hopen.1
  rw [LSMProcess.acked_contents hlz _ hfresh hfirst] at hk
  have hsafe' := (LSMProcess.along_contents hlz (Event.Safe E) hfresh hfirst).mp hsafe
  refine ⟨hconstruct.thrown, ?_⟩
  rw [hconstruct.sound.get, hconstruct.contents,
    Process.acked_recovered E evs hsafe' (d.contents T) hc.symm ho hr k x hk hx]

/-- A put of key 7, and a crash in the flush after it. -/
def crashedFlush (n : ℕ) : List Event :=
  [.construct, .exec (.putRaw 7 [1] false ⟨0, 0⟩), .crash .flush n]

theorem acked_puts_recovered_crashedFlush :
    ∃ d, run (LSMProcess.step sampleTables sampleEnv) .fresh (crashedFlush 1) = .stopped d ∧
      (LSMEngine.construct sampleTables sampleEnv d).engine.get sampleTables 7 = .ok (some [1]) := by
  have hlz : sampleTables.lz.Lawful := lawful_literals
  obtain ⟨hfit, -, -⟩ := sample_run sound_sampleFresh (crashedFlush 1 ++ [.construct]) (by decide +kernel)
  obtain ⟨hfirst, -, hc⟩ := sample_run sound_sampleFresh (crashedFlush 1) (by decide)
  obtain ⟨d, hrun, hd⟩ := LSMProcess.stopped_of_contents (hc.trans rfl)
  have hfresh := LSMProcess.sound_fresh sampleTables
  have hsafe : Along (Process.step sampleEnv) (Event.Safe sampleEnv) (LSMProcess.fresh.contents sampleTables)
      (crashedFlush 1) := by
    refine ⟨⟨by decide, fun h => absurd h (by decide)⟩,
      ⟨by decide, by decide, by decide, fun h => absurd h (by decide)⟩,
      ⟨trivial, by decide⟩, trivial⟩
  refine ⟨d, hrun, (acked_puts_recovered hlz (crashedFlush 1) hfit
    ((LSMProcess.along_contents hlz (Event.Safe sampleEnv) hfresh hfirst).mpr hsafe) d hrun ?_ ?_ 7 [1] ?_
    (by decide)).2⟩
  · rw [hd]
    exact ⟨by decide +kernel, fun _ h => absurd h (by decide +kernel)⟩
  · rw [hd]
    exact fun _ h => absurd h (by decide)
  · rw [LSMProcess.acked_contents hlz _ hfresh hfirst]
    decide

/-- Between the log being cut and the manifest being saved, the put is
lost. -/
theorem acked_put_lost :
    LSMProcess.acked sampleTables sampleEnv .fresh (fun _ => none) (crashedFlush 2) 7 = some [1] ∧
      ∃ d, run (LSMProcess.step sampleTables sampleEnv) .fresh (crashedFlush 2) = .stopped d ∧
        (LSMEngine.construct sampleTables sampleEnv d).engine.get sampleTables 7 = .ok none := by
  have hlz : sampleTables.lz.Lawful := lawful_literals
  obtain ⟨hfit, -, -⟩ := sample_run sound_sampleFresh (crashedFlush 2 ++ [.construct]) (by decide +kernel)
  obtain ⟨hfirst, hs, hc⟩ := sample_run sound_sampleFresh (crashedFlush 2) (by decide)
  obtain ⟨d, hrun, hd⟩ := LSMProcess.stopped_of_contents (hc.trans rfl)
  have hopen := (Run.along_append.mp hfit).2
  rw [hrun] at hs hopen
  have hconstruct := LSMEngine.construct_refines hlz sampleEnv hs hopen.1
  refine ⟨?_, d, hrun, ?_⟩
  · rw [LSMProcess.acked_contents hlz _ (LSMProcess.sound_fresh _) hfirst]
    decide
  · rw [hconstruct.sound.get, hconstruct.contents, hd]
    decide

/-! ### A torn log -/

/-- The directory with the first `c` bytes of a record at the end of
`wal.log`. -/
def Directory.torn (E : Env) (d : Directory) (r : WalRecord) (c : ℕ) : Directory :=
  { d with wal := { d.wal with live := d.wal.live ++ (Wal.encode E.crc32c r).take c } }

theorem Directory.Sound.torn {d : Directory} (h : d.Sound T) (r : WalRecord) (c : ℕ) : (d.torn E r c).Sound T :=
  ⟨h.names, h.files⟩

/-- **A torn tail does not harm later writes** when a record above the
checkpoint stands before it, or no byte of it was written: an engine opened on
the torn directory, run by safe steps to a stop and opened again, answers every
acknowledged put and every whole record of the log, unless overwritten. -/
theorem torn_tail_recovered (hlz : T.lz.Lawful) (d : Directory) (hs : d.Sound T) (v : View) (r : WalRecord) (c : ℕ)
    (hl : WholeLog E (d.contents T) v) (hc : c < (Wal.encode E.crc32c r).length)
    (hu : v.unflushed (d.contents T).recorded.checkpointSeq ≠ [] ∨ c = 0) (evs : List Event)
    (hfit : Along (LSMProcess.step T E) (LSMProcess.Fits T E) (.stopped (d.torn E r c)) (.construct :: evs ++
      [.construct]))
    (hsafe : Along (LSMProcess.step T E) (LSMProcess.Safe T E) (.stopped (d.torn E r c)) (.construct :: evs))
    (d' : Directory) (hd : run (LSMProcess.step T E) (.stopped (d.torn E r c)) (.construct :: evs) = .stopped d')
    (ho : ConstructSafe E (d'.contents T)) (hr : RecoverySafe E (d'.contents T)) (k : Key) (x : Bytes)
    (hk : LSMProcess.acked T E (.stopped (d.torn E r c)) ((d.contents T).kept v) (.construct :: evs) k = some x)
    (hx : x ≠ []) :
    (LSMEngine.construct T E d').thrown = none ∧ (LSMEngine.construct T E d').engine.get T k = .ok (some x) := by
  obtain ⟨hfirst, hopen⟩ := Run.along_append.mp hfit
  have htorn : (LSMProcess.stopped (d.torn E r c)).Sound T := hs.torn r c
  obtain ⟨hs', hc'⟩ := LSMProcess.contents_run hlz htorn hfirst
  rw [hd] at hs' hc' hopen
  have hconstruct := LSMEngine.construct_refines hlz E hs' hopen.1
  rw [LSMProcess.acked_contents hlz _ htorn hfirst] at hk
  have hsafe' := (LSMProcess.along_contents hlz (Event.Safe E) htorn hfirst).mp hsafe
  refine ⟨hconstruct.thrown, ?_⟩
  rw [hconstruct.sound.get, hconstruct.contents,
    hl.acked_recovered hc hu evs hsafe' (d'.contents T) hc'.symm ho hr k x hk hx]

/-- A directory with no table and the records in `wal.log`. -/
def logged (rs : List WalRecord) : Directory := ⟨some .empty, [], (⟨rs, []⟩ : View).files crc32c⟩

theorem sound_logged (rs : List WalRecord) : (logged rs).Sound sampleTables :=
  ⟨List.nodup_nil, fun _ hf => absurd hf List.not_mem_nil⟩

/-- An open, a put of key 9, and a crash before it is flushed. -/
def putAfterTorn : List Event := [.construct, .exec (.putRaw 9 [3] false ⟨0, 0⟩), .crash .flush 0]

/-- A log of one record, and 10 bytes of the next. -/
def tornSecond : LSMProcess := .stopped ((logged [Wal.putRecord 1 7 [1]]).torn sampleEnv (Wal.putRecord 2 8 [2]) 10)

theorem torn_tail_recovered_secondPut :
    ∃ d', run (LSMProcess.step sampleTables sampleEnv) tornSecond putAfterTorn = .stopped d' ∧
      ∀ kx ∈ [((9 : Key), ([3] : Bytes)), (7, [1])],
        (LSMEngine.construct sampleTables sampleEnv d').engine.get sampleTables kx.1 = .ok (some kx.2) := by
  have hlz : sampleTables.lz.Lawful := lawful_literals
  have hsmall : ∀ r ∈ (⟨[Wal.putRecord 1 7 [1]], []⟩ : View).records, r.Small := fun r hr => by
    rw [List.mem_singleton.mp hr]
    exact Wal.small_putRecord 1 7 (by decide)
  have hlog : WholeLog sampleEnv ((logged [Wal.putRecord 1 7 [1]]).contents sampleTables)
      ⟨[Wal.putRecord 1 7 [1]], []⟩ :=
    ⟨Or.inr ⟨_, rfl, le_rfl, nofun, nofun, nofun⟩, rfl, List.Pairwise.nil, hsmall⟩
  have htorn : tornSecond.Sound sampleTables := (sound_logged _).torn _ _
  obtain ⟨hfit, -, -⟩ := sample_run htorn (putAfterTorn ++ [.construct]) (by decide +kernel)
  obtain ⟨hfirst, -, hc⟩ := sample_run htorn putAfterTorn (by decide +kernel)
  obtain ⟨d', hrun, hd⟩ := LSMProcess.stopped_of_contents (hc.trans rfl)
  have hsafe : Along (Process.step sampleEnv) (Event.Safe sampleEnv) (tornSecond.contents sampleTables) putAfterTorn :=
    ⟨⟨by decide +kernel, fun _ h => absurd h (by decide +kernel)⟩,
      ⟨by decide +kernel, by decide +kernel, by decide +kernel, fun h => absurd h (by decide)⟩,
      ⟨trivial, by decide +kernel⟩, trivial⟩
  refine ⟨d', hrun, fun kx hkx => (torn_tail_recovered hlz (logged [Wal.putRecord 1 7 [1]]) (sound_logged _) _
    (Wal.putRecord 2 8 [2]) 10 hlog (by decide) (Or.inl (by decide)) putAfterTorn.tail hfit
    ((LSMProcess.along_contents hlz (Event.Safe sampleEnv) htorn hfirst).mpr hsafe) d' hrun ?_ ?_ kx.1 kx.2 ?_ ?_).2⟩
  · rw [hd]
    exact ⟨by decide +kernel, fun _ h => absurd h (by decide +kernel)⟩
  · rw [hd]
    exact fun _ h => absurd h (by decide +kernel)
  · show LSMProcess.acked _ _ tornSecond _ putAfterTorn _ = _
    rw [LSMProcess.acked_contents hlz _ htorn hfirst]
    revert kx
    decide
  · revert kx
    decide

/-- Ten bytes of a first record. -/
def tornFirst : LSMProcess := .stopped ((logged []).torn sampleEnv (Wal.putRecord 1 7 [1]) 10)

/-- Behind a torn first record, with nothing to replay, the next put is
lost. -/
theorem put_behind_torn_lost :
    LSMProcess.acked sampleTables sampleEnv tornFirst (fun _ => none) putAfterTorn 9 = some [3] ∧
      ∃ d', run (LSMProcess.step sampleTables sampleEnv) tornFirst putAfterTorn = .stopped d' ∧
        (LSMEngine.construct sampleTables sampleEnv d').engine.get sampleTables 9 = .ok none := by
  have hlz : sampleTables.lz.Lawful := lawful_literals
  have htorn : tornFirst.Sound sampleTables := (sound_logged _).torn _ _
  obtain ⟨hfit, -, -⟩ := sample_run htorn (putAfterTorn ++ [.construct]) (by decide +kernel)
  obtain ⟨hfirst, hs, hc⟩ := sample_run htorn putAfterTorn (by decide +kernel)
  obtain ⟨d', hrun, hd⟩ := LSMProcess.stopped_of_contents (hc.trans rfl)
  have hopen := (Run.along_append.mp hfit).2
  rw [hrun] at hs hopen
  have hconstruct := LSMEngine.construct_refines hlz sampleEnv hs hopen.1
  refine ⟨?_, d', hrun, ?_⟩
  · rw [LSMProcess.acked_contents hlz _ htorn hfirst]
    decide +kernel
  · rw [hconstruct.sound.get, hconstruct.contents, hd]
    decide +kernel

end Lsm
end Amind
