/-
# The storage engine behind a store

A store takes the storage engine for a map: what it answers for an id is the
record that was put under the id last. `Backs` says that it is so. A put and a
flush keep it. A merge of tables and a close with the next start keep it if they
change no lookup, which is what `CompactSafe` and `CloseSafe` are for: then they
are pauses that leave the store as it is. So an engine on files whose tables fit
answers as the map does after every run of them (`backs_run`).
-/
import Amind.Lsm.OnFiles
import Amind.Memory.Durable

namespace Amind
namespace Memory

open Amind.Core
open Lsm (Layout CloseSafe)
open Run (run Along Still)

variable {F D : Type} [Zero F] (nf : Numbers F D) (crc : List UInt8 → UInt32)

/-- The record in a value of the engine. -/
def recordOf (data : List UInt8) : Option (MemoryRecord F) := (deserialize nf crc data).toOption

/-- What the engine answers for each id. -/
def answersOf (e : Lsm.Engine) : Answers F := fun id => (e.get id).bind (recordOf nf crc)

/-- The engine answers as a map, in which the store's records are. -/
def Backs (e : Lsm.Engine) (s : MemoryStore F) : Prop :=
  ∃ m, Lsm.Engine.Answers m e ∧ s.lsm = fun id => (m id).bind (recordOf nf crc)

variable {nf crc} {E : Lsm.Wal.Env} {N : ℕ} {e e' : Lsm.Engine} {d : Lsm.Disk} {s : MemoryStore F}

theorem Backs.answers (h : Backs nf crc e s) : answersOf nf crc e = s.lsm := by
  obtain ⟨m, ha, hs⟩ := h
  rw [hs]
  funext id
  rw [answersOf, ha.get_eq]

theorem backs_fresh (c : Config F) : Backs nf crc (Lsm.Engine.fresh E) (MemoryStore.new c) :=
  ⟨fun _ => none, Lsm.Engine.answers_fresh E, rfl⟩

/-- A record is put under its id. -/
theorem Backs.putRaw {hnf : nf.Lawful} (h : Backs nf crc e s) (hwire : s.config.wire = wireOf nf hnf)
    {id : UInt64} {r : MemoryRecord F} {full : Bool} {clk : Lsm.Wal.Clock}
    (hu : e.Uncompacted (.putRaw id (r.serialize nf crc) full clk)) :
    Backs nf crc (e.next (.putRaw id (r.serialize nf crc) full clk)) (s.putRaw id r) := by
  obtain ⟨m, ha, hs⟩ := h
  refine ⟨Function.update m id (some (r.serialize nf crc)), ha.next hu trivial, ?_⟩
  have hread : recordOf nf crc (r.serialize nf crc) = some (r.wire s.config.wire) := by
    rw [recordOf, deserialize_wire hnf, hwire]
    rfl
  funext i
  show Function.update s.lsm id (some (r.wire s.config.wire)) i = _
  rw [hs, Function.update_apply, Function.update_apply]
  split
  · exact hread.symm
  · rfl

theorem Backs.flush (h : Backs nf crc e s) : Backs nf crc (e.next .flush) s := by
  obtain ⟨m, ha, hs⟩ := h
  exact ⟨m, ha.flushLocked, hs⟩

/-! ### Merges and restarts -/

/-- The tables have changed, and no lookup has. -/
theorem Backs.of_get (h : Backs nf crc e s) (hi : e'.immutableMemtable = none)
    (hm : e'.activeMemtable = e.activeMemtable ∨ ∀ k, e'.activeMemtable.node k = none)
    (hget : ∀ k, e'.get k = e.get k) : Backs nf crc e' s := by
  obtain ⟨m, ha, hs⟩ := h
  have hanswers : ∀ k, e'.get k = m k := fun k => (hget k).trans (ha.get_eq k)
  refine ⟨m, ⟨hi, fun k n hn ht => ?_, fun k n hn ht => ?_, fun k hn => ?_⟩, hs⟩
  · rcases hm with hm | hm
    · exact ha.put k n (hm ▸ hn) ht
    · rw [hm] at hn
      cases hn
  · have hmissing : m k = none := by
      rcases hm with hm | hm
      · exact (ha.removed k n (hm ▸ hn) ht).1
      · rw [hm] at hn
        cases hn
    refine ⟨hmissing, ?_⟩
    have h := hanswers k
    rw [Lsm.Engine.get_of_node hi, hn, hmissing] at h
    simpa only [ht, if_true] using h
  · have h := hanswers k
    rw [Lsm.Engine.get_of_node hi, hn] at h
    exact h

/-- The store after a pause in which no lookup changes. -/
theorem Backs.still (h : Backs nf crc e s) (hget : ∀ k, e'.get k = e.get k) :
    Still (O := Unit) MemoryStore.settle s (.pause (answersOf nf crc e')) := by
  have hsame : answersOf nf crc e' = s.lsm := by
    rw [← h.answers]
    funext id
    rw [answersOf, hget, answersOf]
  show s.settle (answersOf nf crc e') = s
  rw [hsame, MemoryStore.settle_lsm]

/-- A merge of tables that is safe for every id leaves the store as it is. -/
theorem Backs.compactL0 (h : Backs nf crc e s) (hl : Layout e d) (hsafe : ∀ k, e.CompactSafe k) :
    Backs nf crc e.compactL0.1 s ∧
      Still (O := Unit) MemoryStore.settle s (.pause (answersOf nf crc e.compactL0.1)) := by
  have hget : ∀ k, e.compactL0.1.get k = e.get k := fun k => (hl.get_compactL0_iff k).mpr (hsafe k)
  have hi : e.compactL0.1.immutableMemtable = none := (hl.compactL0 (E := ⟨fun _ => 0, 0, 0⟩)).immutable
  exact ⟨h.of_get hi (.inl e.sameWrites_compactL0.active) hget, h.still hget⟩

omit [Zero F] in
/-- An engine that has just been opened has nothing in its memtables. -/
theorem node_construct (hd : Lsm.Stored d) (k : UInt64) :
    (Lsm.Engine.construct E d).1.activeMemtable.node k = none := by
  have hi : ((Lsm.Engine.loadTables d).1.replayWal E d).immutableMemtable = none :=
    (hd.loadTables (E := E)).1.immutable
  show ((Lsm.Engine.loadTables d).1.replayWal E d).recoverFlush.1.activeMemtable.node k = none
  cases hm : ((Lsm.Engine.loadTables d).1.replayWal E d).activeMemtable.isEmpty with
  | true =>
    rw [Lsm.Engine.recoverFlush_empty hm]
    exact Lsm.MemTable.node_of_isEmpty hm k
  | false =>
    rw [Lsm.Engine.recoverFlush_eq hi hm, (Lsm.Engine.sameWrites_maybeCompact _).active]
    exact Lsm.SkipList.node_empty k

/-- A close and the next start that are safe for every id do as well. -/
theorem Backs.reopened (h : Backs nf crc e s) (hl : Layout e d) (ht : Lsm.Tracks E N e d)
    (hsafe : ∀ k, CloseSafe E e d k) : Backs nf crc (Lsm.reopened E e d) s ∧
      Still (O := Unit) MemoryStore.settle s (.pause (answersOf nf crc (Lsm.reopened E e d))) := by
  have hget : ∀ k, (Lsm.reopened E e d).get k = e.get k := fun k => (ht.reopens_iff hl k).mpr (hsafe k)
  have hclosed := (hl.flushLocked (E := E)).1
  have hd : Lsm.Stored (d.applyAll E e.flushLocked.2) := hclosed.stored hclosed.saved fun _ _ => rfl
  exact ⟨h.of_get (hd.construct (E := E)).1.immutable (.inr (node_construct hd)) hget, h.still hget⟩

/-! ### Runs -/

/-- What is done to a store and the engine behind it. -/
inductive Deed (F : Type)
  | putRaw (id : UInt64) (r : MemoryRecord F) (full : Bool) (clk : Lsm.Wal.Clock)
  | flush
  | forceCompact
  | reopen

/-- The engine's process, and the store. -/
abbrev Backed (F : Type) := Lsm.Process × MemoryStore F

section Runs

variable (nf crc E)

/-- What the engine is told. -/
def Deed.events : Deed F → List Lsm.Event
  | .putRaw id r full clk => [.exec (.putRaw id (r.serialize nf crc) full clk)]
  | .flush => [.exec .flush]
  | .forceCompact => [.exec .forceCompact]
  | .reopen => [.close, .construct]

def Backed.step (b : Backed F) (o : Deed F) : Backed F :=
  (run (Lsm.Process.step E) b.1 (o.events nf crc),
    match o with
    | .putRaw id r _ _ => b.2.putRaw id r
    | _ => b.2)

/-- A put compacts nothing, and a merge or a restart is safe for every id. -/
def Backed.Safe (b : Backed F) (o : Deed F) : Prop :=
  ∀ e d, b.1 = .running e d →
    match o with
    | .putRaw id r full clk => e.Uncompacted (.putRaw id (r.serialize nf crc) full clk)
    | .flush => True
    | .forceCompact => ∀ k, e.CompactSafe k
    | .reopen => ∀ k, CloseSafe E e d k

/-- A store on a new directory. -/
def Backed.fresh (c : Config F) : Backed F := (Lsm.Process.fresh.step E .construct, MemoryStore.new c)

variable {nf crc E}

/-- The engine runs and answers as a map, in which the store's records are. -/
def Backed.Holds (E : Lsm.Wal.Env) (crc : List UInt8 → UInt32) (hnf : nf.Lawful) (N : ℕ) (b : Backed F) : Prop :=
  ∃ e d, b.1 = .running e d ∧ b.1.Tracked E N ∧ Backs nf crc e b.2 ∧ b.2.config.wire = wireOf nf hnf

theorem Backed.Holds.step {hnf : nf.Lawful} {b : Backed F} (h : b.Holds E crc hnf N) (hN : N + 2 < 2 ^ 64)
    {o : Deed F} (hsafe : b.Safe nf crc E o) : (b.step nf crc E o).Holds E crc hnf (N + 2) := by
  obtain ⟨p, s⟩ := b
  obtain ⟨e, d, rfl, hp, hb, hwire⟩ := h
  have hone : ∀ ev, ((Lsm.Process.running e d).step E ev).Tracked E (N + 1) := hp.step (by omega)
  have htwo : ∀ {e' d'}, Lsm.Process.Tracked E (N + 1) (.running e' d') →
      Lsm.Process.Tracked E (N + 2) (.running e' d') := fun h => ⟨h.1, h.2.mono (Nat.le_succ _)⟩
  obtain ⟨hl, ht⟩ := hp
  have ho := hsafe e d rfl
  cases o with
  | putRaw id r full clk => exact ⟨_, _, rfl, htwo (hone (.exec _)), hb.putRaw hwire ho, hwire⟩
  | flush => exact ⟨_, _, rfl, htwo (hone (.exec _)), hb.flush, hwire⟩
  | forceCompact =>
    refine ⟨_, _, rfl, htwo (hone (.exec _)), ?_, hwire⟩
    show Backs nf crc e.forceCompact.1 s
    unfold Lsm.Engine.forceCompact
    split
    · exact (hb.compactL0 hl ho).1
    · exact hb
  | reopen => exact ⟨_, _, rfl, (hone .close).step hN .construct, (hb.reopened hl ht ho).1, hwire⟩

omit [Zero F] in
/-- The process runs the events of the deeds. -/
theorem Backed.run_fst : ∀ (os : List (Deed F)) (b : Backed F), (run (Backed.step nf crc E) b os).1 =
    run (Lsm.Process.step E) b.1 (os.flatMap (Deed.events nf crc))
  | [], _ => rfl
  | o :: os, b => by
    rw [List.flatMap_cons, Run.run_append, Run.run_cons, run_fst os]
    rfl

/-- **The engine is the map that the store takes it for**: after any puts of records,
flushes, merges and restarts on a new directory, whose tables all fit, and each of which
compacts nothing with a put and changes no lookup with a merge or a restart, what the
engine returns for an id reads as the record that the store has under it. -/
theorem backs_run (hnf : nf.Lawful) {T : Lsm.TableEnv} (hlz : T.lz.Lawful) (E : Lsm.Wal.Env) (c : Config F)
    (hwire : c.wire = wireOf nf hnf) (os : List (Deed F)) (hlen : 2 * os.length + 1 < 2 ^ 64)
    (hfit : Along (Lsm.LSMProcess.step T E) (Lsm.LSMProcess.Fits T E) .fresh
      (.construct :: os.flatMap (Deed.events nf crc)))
    (hsafe : Along (Backed.step nf crc E) (Backed.Safe nf crc E) (.fresh E c) os) :
    ∃ e d, run (Lsm.LSMProcess.step T E) .fresh (.construct :: os.flatMap (Deed.events nf crc)) = .running e d ∧
      ∀ id, ∃ data, e.get T id = .ok data ∧
        data.bind (recordOf nf crc) = (run (Backed.step nf crc E) (.fresh E c) os).2.lsm id := by
  have hrun := Run.run_inv (Backed.step nf crc E) (C := Backed.Safe nf crc E)
    (I := fun os b => 2 * os.length + 1 < 2 ^ 64 → b.Holds E crc hnf (2 * os.length + 1))
    (fun os b o hi ho hlen => by
      rw [List.length_append, List.length_singleton, Nat.mul_succ] at hlen ⊢
      exact (hi (by omega)).step hlen ho)
    os [] (.fresh E c)
    (fun _ => ⟨_, _, rfl, (Lsm.Process.tracked_run E [] (by decide)).step (by decide) .construct, backs_fresh c, hwire⟩)
    hsafe
  obtain ⟨a, _, hp, -, hb, -⟩ := hrun hlen
  obtain ⟨hs, hc⟩ := Lsm.LSMProcess.contents_run hlz (Lsm.LSMProcess.sound_fresh T) hfit
  rw [Backed.run_fst] at hp
  obtain ⟨e, d, he, rfl, -⟩ := Lsm.LSMProcess.running_of_contents (hc.trans hp)
  rw [he] at hs
  exact ⟨e, d, he, fun id => ⟨_, hs.1.get id, congrFun hb.answers id⟩⟩

end Runs

/-- With all in L0 and nothing in the log, a close is safe. -/
theorem closeSafe_of_flushed (hm : e.activeMemtable = Lsm.SkipList.empty)
    (hw : Lsm.Wal.replay E d.wal e.manifest.checkpointSeq = []) (h₁ : e.l1Tables = []) (h₂ : e.l2Tables = [])
    (hf₁ : e.manifest.l1Files = []) (hf₂ : e.manifest.l2Files = []) (k : UInt64) : CloseSafe E e d k := by
  have hnode : e.activeMemtable.node k = none := hm ▸ Lsm.SkipList.node_empty k
  unfold CloseSafe
  simp only [hnode, hw, or_true, if_true]
  refine .inr ⟨?_, fun _ => ?_⟩
  · rw [h₁, hf₁]
    rfl
  · rw [h₂, hf₂]
    rfl

/-- A note is put and flushed, and the engine is closed and opened. -/
def noteReopened : List (Deed UInt32) := [.putRaw 1 note false ⟨0, 0⟩, .flush, .forceCompact, .reopen]

theorem backs_noteReopened :
    ∃ e d, run (Lsm.LSMProcess.step Lsm.sampleTables Lsm.sampleEnv) .fresh
        (.construct :: noteReopened.flatMap (Deed.events bits crc32c)) = .running e d ∧
      ∀ id, ∃ data, e.get Lsm.sampleTables id = .ok data ∧ data.bind (recordOf bits crc32c) =
        (run (Backed.step bits crc32c Lsm.sampleEnv) (.fresh Lsm.sampleEnv fourCached) noteReopened).2.lsm id := by
  refine backs_run lawful_bits Lsm.lawful_literals Lsm.sampleEnv fourCached rfl noteReopened (by decide)
    (Lsm.sample_run Lsm.sound_sampleFresh _ (by decide +kernel)).1 ⟨?_, ?_, ?_, ?_, trivial⟩
  · rintro e d he
    cases he
    exact ⟨List.append_ne_nil_of_right_ne_nil _ (List.cons_ne_nil _ _), fun h => by cases h⟩
  · rintro e d -
    trivial
  · rintro e d he k
    cases he
    exact .inr (.inl (by decide))
  · intro e d he
    have hm : e.activeMemtable = Lsm.SkipList.empty := by cases he; rfl
    have hw : Lsm.Wal.replay Lsm.sampleEnv d.wal e.manifest.checkpointSeq = [] := by cases he; decide +kernel
    have htables : e.l1Tables = [] ∧ e.l2Tables = [] := by cases he; exact ⟨rfl, rfl⟩
    have hfiles : e.manifest.l1Files = [] ∧ e.manifest.l2Files = [] := by cases he; exact ⟨rfl, rfl⟩
    exact closeSafe_of_flushed hm hw htables.1 htables.2 hfiles.1 hfiles.2

end Memory
end Amind
