/-
# Removing an agent

An agent has a directory with its records, its index files and its graph. The
engine opens it when the agent is registered or first used, and when it starts
(`initAgentStore`). Removing the agent writes all of this once more and forgets
the store; the directory stays, and an agent of that id created later opens it
again. So the new store has what the removed one had, but for the lineage.

`blank_recreated_iff` says that it has nothing in it if and only if the removed
store had no record and no edge: what was in its index or its files besides does
not come back.

The engine here is that of `AgentStores` with the directories under it. What two
agents with one directory do to each other is not told (see `separate_iff`).
-/
import Amind.Graph.Histories
import Amind.Lineage.Wal
import Amind.Memory.Durable
import Amind.Server.AgentDirs

namespace Amind
namespace Server
namespace Removal

open Amind.Core Amind.Memory
open Amind.Graph (OpenGraph Unspecified)
open Amind.Graph.GraphStore (recover)
open Amind.Vector (FloatBits HNSWConfig HNSWIndex)
open Amind.Lineage (LineageIndex)
open Run (run Along)

/-- What the engine was configured with. -/
structure Settings (F : Type) where
  cwd : List Text
  dataDir : Text
  store : Config F
  hnsw : HNSWConfig F
  bits : FloatBits F
  agentAutoCreate : Bool
  maxAgents : ℕ

/-- The open store of an agent. -/
structure AgentStore (F : Type) where
  memory : Opened F
  graph : OpenGraph F
  lineage : LineageIndex

/-- An agent's directory, closed. -/
structure Data (F : Type) where
  memory : Opened F
  graph : Journal.Dir

/-- The open stores, the directories as they were last closed, and the agents in
`agents.json`. -/
structure Engine (F : Type) where
  agentStores : AList fun _ : Text => AgentStore F
  disk : List Text → Data F
  saved : List Text

/-- What opening a memory store depends on: see `Opened.init`. -/
structure Opening where
  file : Option ℕ
  keys : List UInt64
  levels : UInt64 → ℕ

inductive AgentError
  | alreadyExists (message : Text)
  | invalidArgument (message : Text)
  | notFound (message : Text)
  | thrown (message : Text)
  deriving DecidableEq, Repr

def defaultAgent : Text := Utf8.bytes "default"

/-- The directory of an agent. -/
def Settings.dirOf {F : Type} (c : Settings F) (agent : Text) : List Text := directory c.cwd (agentDir c.dataDir agent)

namespace Engine

variable {F : Type} [Floats F] (c : Settings F) (e : Engine F)

/-- Open an agent's directory. The lineage index is a new one. -/
def initAgentStore (agent : Text) (o : Opening) : AgentStore F :=
  let d := e.disk (c.dirOf agent)
  { memory := d.memory.init o.file o.keys o.levels
    graph := ⟨recover c.bits d.graph, d.graph⟩
    lineage := {} }

def saveAgentsMeta : Engine F := { e with saved := e.agentStores.keys }

/-- Create an agent. -/
def addAgent (agent : Text) (o : Opening) : Engine F :=
  saveAgentsMeta { e with agentStores := e.agentStores.insert agent (e.initAgentStore c agent o) }

def registerAgent (agent : Text) (o : Opening) : Engine F × Except AgentError Unit :=
  if agent ∈ e.agentStores then (e, .error (.alreadyExists (Utf8.bytes "agent already registered: " ++ agent)))
  else (e.addAgent c agent o, .ok ())

/-- The store of an agent is created if there is none and the policy allows it. -/
def getAgentStore (agent : Text) (o : Opening) : Engine F × Except AgentError Unit :=
  if agent ∈ e.agentStores then (e, .ok ())
  else if agent ≠ defaultAgent ∧ c.agentAutoCreate = false then
    (e, .error (.thrown (Utf8.bytes "Agent auto-creation disabled, unknown agent: " ++ agent)))
  else if c.maxAgents ≤ e.agentStores.keys.length then
    (e, .error (.thrown (Utf8.bytes ("Maximum agent limit reached (" ++ toString c.maxAgents ++ ")"))))
  else (e.addAgent c agent o, .ok ())

/-- A store is written to its directory and destroyed. -/
def close (s : AgentStore F) (u : Unspecified) : Data F where
  memory := (s.memory.call .flush 0).close
  graph := (s.graph.step c.bits (.checkpoint u)).dir

def removeAgent (agent : Text) (u : Unspecified) : Engine F × Except AgentError Unit :=
  if agent = defaultAgent then (e, .error (.invalidArgument (Utf8.bytes "cannot remove the default agent")))
  else
    match e.agentStores.lookup agent with
    | none => (e, .error (.notFound (Utf8.bytes "agent not found: " ++ agent)))
    | some s =>
      (saveAgentsMeta
        { e with
          agentStores := e.agentStores.erase agent
          disk := Function.update e.disk (c.dirOf agent) (close c s u) },
        .ok ())

/-- Every open store is written to its directory and destroyed. -/
def shutdown (us : Text → Unspecified) : Engine F :=
  { e with
    agentStores := ∅
    disk := fun path =>
      match e.agentStores.entries.find? fun x => c.dirOf x.1 = path with
      | some x => close c x.2 (us x.1)
      | none => e.disk path }

/-- The agents in `agents.json`, or else the default one, are opened. -/
def init (opens : Text → Opening) : Engine F :=
  let agents := if e.saved = [] then [defaultAgent] else e.saved
  saveAgentsMeta
    { e with agentStores := agents.foldl (fun m a => m.insert a (e.initAgentStore c a (opens a))) ∅ }

/-- The first start, with nothing on disk. -/
def start (opens : Text → Opening) : Engine F :=
  init c { agentStores := ∅, disk := fun _ => ⟨.start c.store c.hnsw, {}⟩, saved := [] } opens

/-- Change the store of an agent there is. -/
def modifyStore (agent : Text) (f : AgentStore F → AgentStore F) : Engine F :=
  match e.agentStores.lookup agent with
  | some s => { e with agentStores := e.agentStores.insert agent (f s) }
  | none => e

end Engine

/-- What happens to the engine. -/
inductive Request (F : Type)
  | registerAgent (agent : Text) (o : Opening)
  | getAgentStore (agent : Text) (o : Opening)
  | removeAgent (agent : Text) (u : Unspecified)
  | call (agent : Text) (op : Op F) (level : ℕ)
  | get (agent : Text) (id : UInt64) (now : UInt32)
  | changeGraph (agent : Text) (change : Graph.Change F)
  | checkpoint (agent : Text) (u : Unspecified)
  | changeLineage (agent : Text) (change : Lineage.Change)
  | restart (us : Text → Unspecified) (opens : Text → Opening)

/-- The agent a request may create. -/
def Request.creates {F : Type} : Request F → Option Text
  | .registerAgent a _ => some a
  | .getAgentStore a _ => some a
  | _ => none

namespace Engine

variable {F : Type} [Floats F] (c : Settings F)

def step (e : Engine F) : Request F → Engine F
  | .registerAgent a o => (e.registerAgent c a o).1
  | .getAgentStore a o => (e.getAgentStore c a o).1
  | .removeAgent a u => (e.removeAgent c a u).1
  | .call a op level => e.modifyStore a fun s => { s with memory := s.memory.call op level }
  | .get a id now => e.modifyStore a fun s => { s with memory := s.memory.act (.get id now) }
  | .changeGraph a change => e.modifyStore a fun s => { s with graph := s.graph.step c.bits (.change change) }
  | .checkpoint a u => e.modifyStore a fun s => { s with graph := s.graph.step c.bits (.checkpoint u) }
  | .changeLineage a change => e.modifyStore a fun s => { s with lineage := change.applyTo s.lineage }
  | .restart us opens => (e.shutdown c us).init c opens

end Engine

namespace AgentStore

variable {F : Type} (s : AgentStore F)

/-- The store has no record and no edge. -/
def Empty : Prop := (∀ id, s.memory.store.contains id = false) ∧ ∀ id, s.graph.store.getEdges id = []

/-- Nothing is visible in the store. -/
structure Blank : Prop where
  memory : ∀ id, s.memory.store.contains id = false
  vector : ∀ id, s.memory.index.contains id = false
  edges : ∀ id, s.graph.store.getEdges id = []
  lineage : ∀ k, s.lineage.view k = none

end AgentStore

/-! ### The memory -/

section Memory

variable {F : Type} {x : Opened F}

/-- Every id in the index, or in an index file, has a record on disk. -/
structure Covered (x : Opened F) : Prop extends x.Sound where
  indexed : ∀ id, x.index.contains id = true → (x.store.lsm id).isSome
  filed : ∀ f ∈ x.files, ∀ id, f.contains id = true → (x.store.lsm id).isSome

theorem isSome_load (h : x.Sound) (id : UInt64) : (x.store.load id).isSome = (x.store.lsm id).isSome := by
  have hs := congrArg Option.isSome (h.coherent.stored id)
  rw [MemoryStore.shown, Option.isSome_map, Option.isSome_map] at hs
  exact hs.symm

theorem contains_eq (h : x.Sound) (id : UInt64) : x.store.contains id = (x.store.lsm id).isSome := by
  rw [← isSome_load h id, MemoryStore.contains, MemoryStore.load, Option.isSome_or]

theorem covered_start (c : Config F) (h : HNSWConfig F) : Covered (Opened.start c h) where
  toSound := Opened.sound_start c h
  indexed := fun _ hid => by cases hid
  filed := fun _ hf => absurd hf List.not_mem_nil

variable [Floats F]

theorem stored_of_inserts (h : x.Sound) {op : Op F} {id : UInt64} (hi : x.store.inserts op = some id) :
    ((x.store.exec op).lsm id).isSome := by
  refine MemoryStore.stored_exec ?_
  cases op with
  | fastStore r clock now =>
    rw [MemoryStore.inserts, Option.ite_none_right_eq_some] at hi
    exact .inr hi.2
  | update i t v clock now =>
    obtain ⟨old, -, hi⟩ := Option.bind_eq_some_iff.mp hi
    exact .inr (Option.ite_none_right_eq_some.mp hi).2
  | setEmbedding i v =>
    rw [MemoryStore.inserts, Option.ite_none_right_eq_some] at hi
    obtain ⟨⟨hl, -⟩, he⟩ := hi
    cases he
    rw [isSome_load h] at hl
    exact .inl hl
  | _ => cases hi

theorem Covered.call (h : Covered x) (op : Op F) (level : ℕ) : Covered (x.call op level) where
  toSound := h.toSound.step (.call op level)
  indexed := fun id hid => by
    rw [(h.toMirrors.call op level).contains] at hid
    rcases (x.store.hnsw_exec op id).mp hid with hi | ⟨hold, -⟩
    · exact stored_of_inserts h.toSound hi
    · exact MemoryStore.stored_exec (.inl (h.indexed id ((h.contains id).mpr hold)))
  filed := fun f hf id hid => by
    refine MemoryStore.stored_exec (.inl ?_)
    cases op with
    | flush =>
      rcases List.mem_cons.mp hf with rfl | hf
      · exact h.indexed id hid
      · exact h.filed f hf id hid
    | _ => exact h.filed f hf id hid

theorem get_eq (s : MemoryStore F) (id : UInt64) (now : UInt32) : (s.get id now).1.lsm = s.lsm := by
  unfold MemoryStore.get
  cases hc : s.getCached id now with
  | some y =>
    obtain ⟨r, -, rfl⟩ := Option.map_eq_some_iff.mp hc
    rfl
  | none => cases hr : s.getRead id now <;> rfl

theorem Covered.get (h : Covered x) (id : UInt64) (now : UInt32) : Covered (x.act (.get id now)) where
  toSound := h.toSound.act (.get id now)
  indexed := fun i hi => by
    show ((x.store.get id now).1.lsm i).isSome
    rw [get_eq]
    exact h.indexed i hi
  filed := fun f hf i hi => by
    show ((x.store.get id now).1.lsm i).isSome
    rw [get_eq]
    exact h.filed f hf i hi

theorem Covered.close (h : Covered x) : Covered x.close := h.call .flush 0

/-- Opening inserts records that are on disk, into an index that was saved. -/
theorem Covered.init (h : Covered x) (o : Opening) : Covered (x.init o.file o.keys o.levels) := by
  have hload := h.toMirrors.init o.file o.keys o.levels
  have hfile : ∀ id, (x.loaded o.file).contains id = true → (x.store.lsm id).isSome := by
    intro id hid
    unfold Opened.loaded at hid
    cases hf : o.file.bind fun k => x.files[k]? with
    | none =>
      rw [hf] at hid
      cases hid
    | some f =>
      rw [hf] at hid
      obtain ⟨k, -, hk⟩ := Option.bind_eq_some_iff.mp hf
      exact h.filed f (List.mem_of_getElem? hk) id hid
  have hfold := List.foldlRecOn (motive := fun y : Opened F =>
      (∀ id, y.index.contains id = true → (x.store.lsm id).isSome) ∧ y.files = x.files ∧
        Opened.Loading x.store.config x.index.config x.store.lsm y) (b := x.onDisk o.file) o.keys
    (Opened.reconcile o.levels) ⟨hfile, rfl, h.toMirrors.onDisk o.file⟩ fun y hy i _ => by
      refine ⟨fun id hid => ?_, ?_, hy.2.2.reconcile o.levels i⟩
      · unfold Opened.reconcile at hid
        split at hid
        · exact hy.1 id hid
        · split at hid
          · rename_i r hr
            split at hid
            · exact hy.1 id hid
            · rcases (HNSWIndex.contains_insert hy.2.2.rooted).mp hid with ⟨rfl, -⟩ | hold
              · rw [hy.2.2.lsm] at hr
                rw [hr]
                rfl
              · exact hy.1 id hold
          · exact hy.1 id hid
      · rw [← hy.2.1]
        unfold Opened.reconcile
        split
        · rfl
        · split
          · split <;> rfl
          · rfl
  have hindexed : ∀ id, (x.init o.file o.keys o.levels).index.contains id = true → (x.store.lsm id).isSome := hfold.1
  refine ⟨⟨hload.toMirrors, hload.fromDisk.coherent (hload.wired h.coherent.wired)⟩, fun id hid => ?_,
    fun f hf id hid => ?_⟩
  · rw [hload.lsm]
    exact hindexed id hid
  · rw [hload.lsm]
    unfold Opened.init at hf
    dsimp only at hf
    rw [hfold.2.1] at hf
    split at hf
    · exact h.filed f hf id hid
    · rcases List.mem_cons.mp hf with rfl | hf
      · exact hindexed id hid
      · exact h.filed f hf id hid

theorem lsm_init (h : Covered x) (o : Opening) : (x.init o.file o.keys o.levels).store.lsm = x.store.lsm :=
  (h.toMirrors.init o.file o.keys o.levels).lsm

end Memory

/-! ### One directory -/

section Directory

variable {F : Type} (c : Settings F)

/-- The directory has no record and no edge. -/
structure Bare (d : Data F) : Prop where
  records : ∀ id, d.memory.store.lsm id = none
  edges : ∀ id, (recover c.bits d.graph).getEdges id = []

variable {c} [Floats F]

omit [Floats F] in
theorem gather_empty {g : Graph.GraphStore F} (h : ∀ id, g.getEdges id = []) (u : Unspecified) :
    g.gather c.bits u = [] := by
  rw [Graph.GraphStore.gather, List.flatMap_eq_nil_iff]
  intro id _
  rw [h id]
  rfl

/-- A store whose index and files have only ids with records, and whose graph is
in order. -/
structure Whole (s : AgentStore F) : Prop where
  memory : Covered s.memory
  graph : s.graph.store.WellFormed

theorem Whole.closed {s : AgentStore F} (h : Whole s) (u : Unspecified) : Covered (Engine.close c s u).memory :=
  (h.memory.call .flush 0).close

theorem whole_initAgentStore {e : Engine F} {a : Text} (h : Covered (e.disk (c.dirOf a)).memory) (o : Opening) :
    Whole (e.initAgentStore c a o) := ⟨h.init o, Graph.GraphStore.wellFormed_recover _⟩

/-- The directory of a closed store is empty if the store was. -/
theorem bare_close {s : AgentStore F} (h : s.Empty) (u : Unspecified) : Bare c (Engine.close c s u) where
  records := fun id => by
    rw [← Option.not_isSome_iff_eq_none]
    intro hsome
    have hflush : ∀ {t : MemoryStore F}, (t.exec .flush).contains id = true → t.contains id = true := fun h =>
      (MemoryStore.contains_exec h).resolve_right nofun
    have hback := hflush (hflush (MemoryStore.contains_iff.mpr (.inr hsome)))
    rw [h.1 id] at hback
    cases hback
  edges := fun id => by
    have hdir : (Engine.close c s u).graph = s.graph.dir.checkpoint (s.graph.snapshot c.bits u) := rfl
    rw [hdir, Journal.Dir.checkpoint_eq, OpenGraph.snapshot, gather_empty h.2, recover,
      Graph.loadSnapshot_snapshotBytes _ (by decide)]
    rfl

/-- A store with an empty directory had no record, and no edge that a checkpoint
can count. -/
theorem empty_of_bare {s : AgentStore F} (hs : Whole s) {u : Unspecified}
    (hlen : (s.graph.store.gather c.bits u).length < 2 ^ 64) (h : Bare c (Engine.close c s u)) : s.Empty := by
  refine ⟨fun id => ?_, fun id => ?_⟩
  · have hsound := hs.memory.toSound
    rw [contains_eq hsound, Bool.eq_false_iff]
    intro hsome
    have hflush : ∀ {t : MemoryStore F}, (t.lsm id).isSome → ((t.exec .flush).lsm id).isSome := fun h =>
      MemoryStore.stored_exec (.inl h)
    have hkept : ((Engine.close c s u).memory.store.lsm id).isSome := hflush (hflush hsome)
    rw [h.records id] at hkept
    cases hkept
  · have hdir : (Engine.close c s u).graph = s.graph.dir.checkpoint (s.graph.snapshot c.bits u) := rfl
    have hview : (recover c.bits (Engine.close c s u).graph).view = s.graph.store.view := by
      rw [Graph.GraphStore.view_recover, hdir, Journal.Dir.checkpoint_eq]
      exact Graph.GraphStore.base_snapshotBytes u hs.graph hlen
    have hsame := (Graph.GraphStore.sameEdges_iff
      (Graph.GraphStore.wellFormed_recover (Engine.close c s u).graph).toIndexed hs.graph.toIndexed).mpr hview
    have hperm := hsame id
    rw [h.edges id] at hperm
    exact List.nil_perm.mp hperm

/-- A store is opened with nothing in it if its directory is empty, and only
then. -/
theorem blank_initAgentStore {e : Engine F} {a : Text} (h : Covered (e.disk (c.dirOf a)).memory) (o : Opening) :
    (e.initAgentStore c a o).Blank ↔ Bare c (e.disk (c.dirOf a)) := by
  have hc : Covered (e.initAgentStore c a o).memory := h.init o
  have hkeep : (e.initAgentStore c a o).memory.store.lsm = (e.disk (c.dirOf a)).memory.store.lsm := lsm_init h o
  constructor
  · rintro ⟨hmemory, -, hedges, -⟩
    refine ⟨fun id => ?_, hedges⟩
    have hnone := hmemory id
    rw [contains_eq hc.toSound, hkeep, Option.isSome_eq_false_iff, Option.isNone_iff_eq_none] at hnone
    exact hnone
  · intro hb
    have hnone : ∀ id, (e.initAgentStore c a o).memory.store.lsm id = none := by
      intro id
      rw [hkeep]
      exact hb.records id
    refine ⟨fun id => ?_, fun id => ?_, hb.edges, fun k => by cases k <;> rfl⟩
    · rw [contains_eq hc.toSound, hnone]
      rfl
    · rw [Bool.eq_false_iff]
      intro hid
      have hsome := hc.indexed id hid
      rw [hnone id] at hsome
      cases hsome

end Directory

/-! ### The engine -/

section Engine

variable {F : Type} [Floats F] {c : Settings F} {ids : Set Text} {e : Engine F}

/-- The agents there are may be created, and what is in their stores and in the
directories is covered by records on disk. -/
structure Kept (ids : Set Text) (e : Engine F) : Prop where
  whole : ∀ a s, e.agentStores.lookup a = some s → Whole s
  known : ∀ a ∈ e.agentStores, a ∈ ids
  disk : ∀ path, Covered (e.disk path).memory
  saved : ∀ a, a ∈ e.saved ↔ a ∈ e.agentStores

/-- The agent has no store, and its directory is that of `d`. -/
structure Away (c : Settings F) (a : Text) (d : Data F) (e : Engine F) : Prop where
  gone : a ∉ e.agentStores
  disk : e.disk (c.dirOf a) = d

omit [Floats F] in
theorem mem_of_lookup {a : Text} {s : AgentStore F} (h : e.agentStores.lookup a = some s) : a ∈ e.agentStores :=
  AList.lookup_isSome.mp (by rw [h]; rfl)

/-! #### Creating -/

theorem Kept.addAgent (h : Kept ids e) {a : Text} (ha : a ∈ ids) (o : Opening) : Kept ids (e.addAgent c a o) where
  whole := fun b s hb => by
    by_cases hab : b = a
    · subst hab
      have hlookup := (AList.lookup_insert e.agentStores).symm.trans hb
      cases hlookup
      exact whole_initAgentStore (h.disk _) o
    · exact h.whole b s ((AList.lookup_insert_ne hab).symm.trans hb)
  known := fun b hb => by
    rcases (AList.mem_insert _).mp hb with rfl | hb
    · exact ha
    · exact h.known b hb
  disk := h.disk
  saved := fun b => AList.mem_keys.symm

/-- Creating an agent does not touch the directory of one that is away. -/
theorem Away.addAgent {a b : Text} {d : Data F} (h : Away c a d e) (hab : a ≠ b) (o : Opening) :
    Away c a d (e.addAgent c b o) where
  gone := fun hm => ((AList.mem_insert _).mp hm).elim hab h.gone
  disk := h.disk

/-! #### Changing a store -/

omit [Floats F] in
theorem mem_modifyStore {a b : Text} {f : AgentStore F → AgentStore F} :
    b ∈ (e.modifyStore a f).agentStores ↔ b ∈ e.agentStores := by
  unfold Engine.modifyStore
  cases ha : e.agentStores.lookup a with
  | none => exact Iff.rfl
  | some s =>
    have hmem := mem_of_lookup ha
    exact (AList.mem_insert _).trans ⟨fun hb => hb.elim (fun he => he ▸ hmem) fun hb => hb, .inr⟩

omit [Floats F] in
theorem disk_modifyStore (a : Text) (f : AgentStore F → AgentStore F) :
    (e.modifyStore a f).disk = e.disk ∧ (e.modifyStore a f).saved = e.saved := by
  unfold Engine.modifyStore
  cases e.agentStores.lookup a <;> exact ⟨rfl, rfl⟩

omit [Floats F] in
theorem Kept.modifyStore (h : Kept ids e) (a : Text) {f : AgentStore F → AgentStore F}
    (hf : ∀ s, Whole s → Whole (f s)) : Kept ids (e.modifyStore a f) where
  whole := fun b t hb => by
    unfold Engine.modifyStore at hb
    cases ha : e.agentStores.lookup a with
    | none =>
      rw [ha] at hb
      exact h.whole b t hb
    | some s =>
      rw [ha] at hb
      by_cases hab : b = a
      · subst hab
        have hlookup := (AList.lookup_insert e.agentStores).symm.trans hb
        cases hlookup
        exact hf s (h.whole b s ha)
      · exact h.whole b t ((AList.lookup_insert_ne hab).symm.trans hb)
  known := fun b hb => h.known b (mem_modifyStore.mp hb)
  disk := by
    rw [(disk_modifyStore a f).1]
    exact h.disk
  saved := fun b => by
    rw [(disk_modifyStore a f).2]
    exact (h.saved b).trans mem_modifyStore.symm

omit [Floats F] in
theorem Away.modifyStore {a : Text} {d : Data F} (h : Away c a d e) (b : Text) (f : AgentStore F → AgentStore F) :
    Away c a d (e.modifyStore b f) where
  gone := fun hm => h.gone (mem_modifyStore.mp hm)
  disk := by
    rw [(disk_modifyStore b f).1]
    exact h.disk

/-! #### Removing -/

theorem removeAgent_cases (e : Engine F) (a : Text) (u : Unspecified) :
    (e.removeAgent c a u).1 = e ∧ (e.removeAgent c a u).2 ≠ .ok () ∨
      a ≠ defaultAgent ∧ ∃ s, e.agentStores.lookup a = some s ∧
        (e.removeAgent c a u).1 =
          Engine.saveAgentsMeta
            { e with
              agentStores := e.agentStores.erase a
              disk := Function.update e.disk (c.dirOf a) (Engine.close c s u) } := by
  unfold Engine.removeAgent
  split
  · exact .inl ⟨rfl, nofun⟩
  · rename_i hdefault
    cases ha : e.agentStores.lookup a with
    | none => exact .inl ⟨rfl, nofun⟩
    | some s => exact .inr ⟨hdefault, s, rfl, rfl⟩

theorem Kept.removeAgent (h : Kept ids e) (a : Text) (u : Unspecified) : Kept ids (e.removeAgent c a u).1 := by
  obtain ⟨hsame, -⟩ | ⟨-, s, hs, heq⟩ := removeAgent_cases (c := c) e a u
  · rw [hsame]
    exact h
  · rw [heq]
    refine ⟨fun b t hb => ?_, fun b hb => h.known b (AList.mem_erase.mp hb).2, fun path => ?_,
      fun b => AList.mem_keys.symm⟩
    · have hab : b ≠ a := by
        rintro rfl
        have hnone := AList.lookup_erase b e.agentStores
        cases hnone.symm.trans hb
      exact h.whole b t ((AList.lookup_erase_ne hab).symm.trans hb)
    · show Covered (Function.update e.disk (c.dirOf a) (Engine.close c s u) path).memory
      by_cases hpath : path = c.dirOf a
      · subst hpath
        rw [Function.update_self]
        exact (h.whole a s hs).closed u
      · rw [Function.update_of_ne hpath]
        exact h.disk path

/-- The store that is removed is left in its directory. -/
theorem away_removeAgent {a : Text} {s : AgentStore F} (hs : e.agentStores.lookup a = some s) {u : Unspecified}
    (hok : (e.removeAgent c a u).2 = .ok ()) : Away c a (Engine.close c s u) (e.removeAgent c a u).1 := by
  obtain ⟨-, hno⟩ | ⟨-, t, ht, heq⟩ := removeAgent_cases (c := c) e a u
  · exact absurd hok hno
  · cases hs.symm.trans ht
    rw [heq]
    exact ⟨fun hm => (AList.mem_erase.mp hm).1 rfl, Function.update_self ..⟩

theorem Away.removeAgent {a b : Text} {d : Data F} (h : Away c a d e) (hids : Set.InjOn c.dirOf ids)
    (hk : Kept ids e) (ha : a ∈ ids) (u : Unspecified) : Away c a d (e.removeAgent c b u).1 := by
  obtain ⟨hsame, -⟩ | ⟨-, s, hs, heq⟩ := removeAgent_cases (c := c) e b u
  · rw [hsame]
    exact h
  · have hmem := mem_of_lookup hs
    rw [heq]
    refine ⟨fun hm => h.gone (AList.mem_erase.mp hm).2, ?_⟩
    have hne : c.dirOf a ≠ c.dirOf b := fun hdir => h.gone (hids ha (hk.known b hmem) hdir ▸ hmem)
    exact (Function.update_of_ne hne _ _).trans h.disk

/-! #### Starting -/

omit [Floats F] in
theorem lookup_opened (g : Text → AgentStore F) (a : Text) :
    ∀ (agents : List Text) (m : AList fun _ : Text => AgentStore F),
    (agents.foldl (fun m a => m.insert a (g a)) m).lookup a = if a ∈ agents then some (g a) else m.lookup a
  | [], m => by simp
  | b :: agents, m => by
    rw [List.foldl_cons, lookup_opened g a agents]
    by_cases hmem : a ∈ agents
    · simp [hmem]
    · by_cases hab : a = b
      · subst hab
        simp [AList.lookup_insert]
      · simp [hmem, hab, AList.lookup_insert_ne hab]

/-- The agents a start opens. -/
def listed (e : Engine F) : List Text := if e.saved = [] then [defaultAgent] else e.saved

theorem lookup_init (e : Engine F) (opens : Text → Opening) (a : Text) : (e.init c opens).agentStores.lookup a =
    if a ∈ listed e then some (e.initAgentStore c a (opens a)) else none := by
  have h := lookup_opened (fun a => e.initAgentStore c a (opens a)) a (listed e) ∅
  rw [AList.lookup_empty] at h
  exact h

theorem mem_init (e : Engine F) (opens : Text → Opening) (a : Text) :
    a ∈ (e.init c opens).agentStores ↔ a ∈ listed e := by
  rw [← AList.lookup_isSome, lookup_init]
  split <;> simp_all

theorem Kept.init (hdisk : ∀ path, Covered (e.disk path).memory) (hsaved : ∀ a ∈ e.saved, a ∈ ids)
    (hdefault : defaultAgent ∈ ids) (opens : Text → Opening) : Kept ids (e.init c opens) where
  whole := fun a s hs => by
    rw [lookup_init, Option.ite_none_right_eq_some] at hs
    cases hs.2
    exact whole_initAgentStore (hdisk _) _
  known := fun a ha => by
    rw [mem_init, listed] at ha
    split at ha
    · rw [List.mem_singleton.mp ha]
      exact hdefault
    · exact hsaved a ha
  disk := hdisk
  saved := fun a => AList.mem_keys.symm

theorem Kept.restart (h : Kept ids e) (hdefault : defaultAgent ∈ ids) (us : Text → Unspecified)
    (opens : Text → Opening) : Kept ids ((e.shutdown c us).init c opens) := by
  refine Kept.init (e := e.shutdown c us) (fun path => ?_) (fun a ha => h.known a ((h.saved a).mp ha)) hdefault opens
  unfold Engine.shutdown
  dsimp only
  split
  · rename_i x hx
    have hlookup : e.agentStores.lookup x.1 = some x.2 := AList.mem_lookup_iff.mpr (List.mem_of_find?_eq_some hx)
    exact (h.whole x.1 x.2 hlookup).closed _
  · exact h.disk path

theorem kept_start (hdefault : defaultAgent ∈ ids) (opens : Text → Opening) : Kept ids (Engine.start c opens) :=
  .init (fun _ => covered_start c.store c.hnsw) (fun _ h => absurd h List.not_mem_nil) hdefault opens

theorem disk_shutdown {a : Text} (h : a ∉ e.agentStores) (hids : Set.InjOn c.dirOf ids) (hk : Kept ids e)
    (ha : a ∈ ids) (us : Text → Unspecified) : (e.shutdown c us).disk (c.dirOf a) = e.disk (c.dirOf a) := by
  have hnone : e.agentStores.entries.find? (fun x => c.dirOf x.1 = c.dirOf a) = none := by
    rw [List.find?_eq_none]
    intro x hx hdir
    have hmem : x.1 ∈ e.agentStores := mem_of_lookup (AList.mem_lookup_iff.mpr hx)
    have heq : x.1 = a := hids (hk.known x.1 hmem) ha (of_decide_eq_true hdir)
    exact h (heq ▸ hmem)
  unfold Engine.shutdown
  dsimp only
  rw [hnone]

theorem Away.restart {a : Text} {d : Data F} (h : Away c a d e) (hids : Set.InjOn c.dirOf ids) (hk : Kept ids e)
    (ha : a ∈ ids) (hne : a ≠ defaultAgent) (us : Text → Unspecified) (opens : Text → Opening) :
    Away c a d ((e.shutdown c us).init c opens) where
  gone := fun hm => by
    rw [mem_init, listed] at hm
    split at hm
    · exact hne (List.mem_singleton.mp hm)
    · exact h.gone ((hk.saved a).mp hm)
  disk := (disk_shutdown h.gone hids hk ha us).trans h.disk

/-! ### Runs -/

/-- The agent the request may create is one of these. -/
def Among (ids : Set Text) (q : Request F) : Prop := ∀ a, q.creates = some a → a ∈ ids

theorem addAgent_of_creates {q : Request F} {a : Text} (hq : q.creates = some a) :
    Engine.step c e q = e ∨ a ∉ e.agentStores ∧ ∃ o, Engine.step c e q = e.addAgent c a o := by
  cases q with
  | registerAgent b o =>
    cases hq
    show (e.registerAgent c a o).1 = e ∨ _ ∧ ∃ o', (e.registerAgent c a o).1 = e.addAgent c a o'
    unfold Engine.registerAgent
    split
    · exact .inl rfl
    · exact .inr ⟨‹_›, o, rfl⟩
  | getAgentStore b o =>
    cases hq
    show (e.getAgentStore c a o).1 = e ∨ _ ∧ ∃ o', (e.getAgentStore c a o).1 = e.addAgent c a o'
    unfold Engine.getAgentStore
    split
    · exact .inl rfl
    · split
      · exact .inl rfl
      · split
        · exact .inl rfl
        · exact .inr ⟨‹_›, o, rfl⟩
  | _ => cases hq

omit [Floats F] in
theorem Whole.change {s : AgentStore F} (h : Whole s) (change : Graph.Change F) :
    Whole { s with graph := s.graph.step c.bits (.change change) } where
  memory := h.memory
  graph :=
    have hgraph : (s.graph.store.perform c.bits (.change change)).WellFormed := h.graph.perform (.change change)
    hgraph

theorem Kept.step (h : Kept ids e) (hdefault : defaultAgent ∈ ids) {q : Request F} (hq : Among ids q) :
    Kept ids (Engine.step c e q) := by
  cases hc : q.creates with
  | some a =>
    obtain heq | ⟨-, o, heq⟩ := addAgent_of_creates (c := c) (e := e) hc
    · rw [heq]
      exact h
    · rw [heq]
      exact h.addAgent (hq a hc) o
  | none =>
    cases q with
    | registerAgent a o => cases hc
    | getAgentStore a o => cases hc
    | removeAgent a u => exact h.removeAgent a u
    | call a op level => exact h.modifyStore a fun s hs => ⟨hs.memory.call op level, hs.graph⟩
    | get a id now => exact h.modifyStore a fun s hs => ⟨hs.memory.get id now, hs.graph⟩
    | changeGraph a change => exact h.modifyStore a fun s hs => hs.change change
    | checkpoint a u => exact h.modifyStore a fun s hs => ⟨hs.memory, hs.graph⟩
    | changeLineage a change => exact h.modifyStore a fun s hs => ⟨hs.memory, hs.graph⟩
    | restart us opens => exact h.restart hdefault us opens

/-- No request but one that may create the agent touches its directory while it
is away. -/
theorem Away.step {a : Text} {d : Data F} (h : Away c a d e) (hids : Set.InjOn c.dirOf ids) (hk : Kept ids e)
    (ha : a ∈ ids) (hne : a ≠ defaultAgent) {q : Request F} (hq : q.creates ≠ some a) :
      Away c a d (Engine.step c e q) := by
  cases hc : q.creates with
  | some b =>
    have hab : a ≠ b := fun hab => hq (hab ▸ hc)
    obtain heq | ⟨-, o, heq⟩ := addAgent_of_creates (c := c) (e := e) hc
    · rw [heq]
      exact h
    · rw [heq]
      exact h.addAgent hab o
  | none =>
    cases q with
    | registerAgent b o => cases hc
    | getAgentStore b o => cases hc
    | removeAgent b u => exact h.removeAgent hids hk ha u
    | call b op level => exact h.modifyStore b _
    | get b id now => exact h.modifyStore b _
    | changeGraph b change => exact h.modifyStore b _
    | checkpoint b u => exact h.modifyStore b _
    | changeLineage b change => exact h.modifyStore b _
    | restart us opens => exact h.restart hids hk ha hne us opens

theorem kept_run (hdefault : defaultAgent ∈ ids) (opens : Text → Opening) (qs : List (Request F))
    (hqs : ∀ q ∈ qs, Among ids q) : Kept ids (run (Engine.step c) (Engine.start c opens) qs) := by
  induction qs using List.reverseRecOn with
  | nil => exact kept_start hdefault opens
  | append_singleton qs q ih =>
    rw [Run.run_concat]
    exact (ih fun q' hq' => hqs q' (List.mem_append_left _ hq')).step hdefault
      (hqs q (List.mem_append_right _ (List.mem_singleton_self q)))

theorem away_run {a : Text} {d : Data F} (hids : Set.InjOn c.dirOf ids) (hdefault : defaultAgent ∈ ids) (ha : a ∈ ids)
    (hne : a ≠ defaultAgent) : ∀ (qs : List (Request F)) (e : Engine F), Away c a d e → Kept ids e →
      (∀ q ∈ qs, Among ids q ∧ q.creates ≠ some a) → Away c a d (run (Engine.step c) e qs)
  | [], _, h, _, _ => h
  | q :: qs, e, h, hk, hqs => by
    have hq := hqs q List.mem_cons_self
    exact away_run hids hdefault ha hne qs (Engine.step c e q) (h.step hids hk ha hne hq.2) (hk.step hdefault hq.1)
      fun q' hq' => hqs q' (List.mem_cons_of_mem _ hq')

/-- **The store of an agent that is created again after it was removed has
nothing in it if and only if the removed one had no record and no edge**, in
every run that creates only agents whose directories differ. -/
theorem blank_recreated_iff (c : Settings F) (ids : Set Text) (hids : Set.InjOn c.dirOf ids)
    (hdefault : defaultAgent ∈ ids) (opens : Text → Opening) (before later : List (Request F)) (a : Text)
    (u : Unspecified) (q : Request F) (hq : q.creates = some a)
    (hamong : ∀ r ∈ before ++ later ++ [q], Among ids r) (hlater : ∀ r ∈ later, r.creates ≠ some a)
    {s t : AgentStore F} (hs : (run (Engine.step c) (Engine.start c opens) before).agentStores.lookup a = some s)
    (hok : ((run (Engine.step c) (Engine.start c opens) before).removeAgent c a u).2 = .ok ())
    (ht : (run (Engine.step c) (Engine.start c opens) (before ++ .removeAgent a u :: later ++
      [q])).agentStores.lookup a = some t) :
    (s.Empty → t.Blank) ∧ ((s.graph.store.gather c.bits u).length < 2 ^ 64 → t.Blank → s.Empty) := by
  have hbefore : ∀ r ∈ before, Among ids r := fun r hr => hamong r (by simp [hr])
  have hafter : ∀ r ∈ later, Among ids r := fun r hr => hamong r (by simp [hr])
  have hkept := kept_run (c := c) hdefault opens before hbefore
  have ha : a ∈ ids := hkept.known a (mem_of_lookup hs)
  have hne : a ≠ defaultAgent := by
    rintro rfl
    cases hok
  -- the directory is as the removal left it until the agent is created again
  have haway := away_removeAgent hs hok
  have hremoved : Kept ids (Engine.step c (run (Engine.step c) (Engine.start c opens) before) (.removeAgent a u)) := hkept.removeAgent a u
  have hrest := away_run hids hdefault ha hne later _ haway hremoved fun r hr => ⟨hafter r hr, hlater r hr⟩
  have hkeptRest : Kept ids (run (Engine.step c) (Engine.start c opens) (before ++ .removeAgent a u :: later)) := by
    refine kept_run hdefault opens _ fun r hr => ?_
    rcases List.mem_append.mp hr with hr | hr
    · exact hbefore r hr
    · rcases List.mem_cons.mp hr with rfl | hr
      · exact nofun
      · exact hafter r hr
  have hrun : run (Engine.step c) (Engine.start c opens) (before ++ .removeAgent a u :: later) =
      run (Engine.step c) ((run (Engine.step c) (Engine.start c opens) before).removeAgent c a u).1 later := by
    rw [Run.run_append, Run.run_cons]
    rfl
  rw [← hrun] at hrest
  rw [Run.run_concat] at ht
  -- so what is opened is what was closed
  have hblank : t.Blank ↔ Bare c (Engine.close c s u) := by
    obtain heq | ⟨-, o, heq⟩ := addAgent_of_creates (c := c) hq
    · rw [heq] at ht
      exact absurd (mem_of_lookup ht) hrest.gone
    · rw [heq] at ht
      have hlookup := (AList.lookup_insert _).symm.trans ht
      cases hlookup
      rw [blank_initAgentStore (hkeptRest.disk _), hrest.disk]
  rw [hblank]
  exact ⟨fun hempty => bare_close hempty u, fun hlen => empty_of_bare (hkept.whole a s hs) hlen⟩

omit [Floats F] in
/-- Agents whose ids are single names have different directories. -/
theorem injOn_names (h : (0 : UInt8) ∉ c.dataDir) : Set.InjOn c.dirOf {a | IsName a} := by
  intro a ha b hb hdir
  by_contra hne
  exact (separate_of_name h ha hb hne c.cwd).1.1 hdir

end Engine

/-! ### One agent -/

def ann : Text := Utf8.bytes "ann"

def settings : Settings UInt32 :=
  ⟨[], Utf8.bytes "/srv", fourCached, plain, Vector.ColdStore.rawBits, true, 10⟩

/-- The newest index file is found. -/
def newest : Opening := ⟨some 0, [1], fun _ => 0⟩

def inOrder : Unspecified := ⟨fun l => l, fun _ => .refl _, fun _ => (0, 0)⟩

def running (qs : List (Request UInt32)) : Engine UInt32 :=
  run (Engine.step settings) (.start settings fun _ => newest) qs

/-- An agent that stored nothing is created again after a restart. -/
theorem blank_recreated_ann : ∃ s t : AgentStore UInt32,
    (running [.registerAgent ann newest]).agentStores.lookup ann = some s ∧
      ((s.Empty → t.Blank) ∧
        ((s.graph.store.gather settings.bits inOrder).length < 2 ^ 64 → t.Blank → s.Empty)) := by
  have hdefault : IsName defaultAgent := by constructor <;> decide
  have hann : IsName ann := by constructor <;> decide
  have hids : Set.InjOn settings.dirOf {id | IsName id} := injOn_names (by decide)
  obtain ⟨s, hs⟩ : ∃ s, (running [.registerAgent ann newest]).agentStores.lookup ann = some s :=
    Option.isSome_iff_exists.mp (by decide)
  obtain ⟨t, ht⟩ : ∃ t, (running ([.registerAgent ann newest] ++
      .removeAgent ann inOrder :: [.restart (fun _ => inOrder) fun _ => newest] ++
        [.getAgentStore ann newest])).agentStores.lookup ann = some t :=
    Option.isSome_iff_exists.mp (by decide)
  refine ⟨s, t, hs, blank_recreated_iff settings _ hids hdefault (fun _ => newest) _ _ ann inOrder
    (.getAgentStore ann newest) rfl ?_ ?_ hs (by decide) ht⟩
  · intro r hr
    simp only [List.cons_append, List.nil_append, List.mem_cons, List.not_mem_nil, or_false] at hr
    rcases hr with rfl | rfl | rfl
    · rintro _ ⟨⟩
      exact hann
    · exact nofun
    · rintro _ ⟨⟩
      exact hann
  · intro r hr
    rw [List.mem_singleton.mp hr]
    exact nofun

def stored : List (Request UInt32) :=
  [.registerAgent ann newest, .call ann (.fastStore { note with embedding := [7] } [] 5) 0]

/-- Whether an agent has the record and its vector. -/
def seen (e : Engine UInt32) : Option (Bool × Bool) :=
  (e.agentStores.lookup ann).map fun s => (s.memory.store.contains 1, s.memory.index.contains 1)

/-- An agent is removed and created again, in the same process and after a
restart, and its record and vector are there. -/
theorem seen_recreated :
    ((running stored).removeAgent settings ann inOrder).2 = .ok () ∧
      seen (running (stored ++ [.removeAgent ann inOrder])) = none ∧
      seen (running (stored ++ [.removeAgent ann inOrder, .registerAgent ann newest])) = some (true, true) ∧
      seen (running (stored ++
        [.removeAgent ann inOrder, .restart (fun _ => inOrder) (fun _ => newest), .getAgentStore ann newest])) =
          some (true, true) :=
  ⟨by decide, by decide, by decide, by decide⟩

end Removal
end Server
end Amind
