/-
# The agents' stores

The engine has a store for each agent, every one with an id generator of its
own. All of them are made for worker 0, so an id tells its store only through
the millisecond in which it was drawn: two stores that draw in the same one
draw the same ids. A request that names a memory by its id is answered by the
first store that contains it (`findStoreForMemory`), in whatever order the map
of the agents is walked.

A store is opened on the directory of its agent, with what is in it already: an
earlier run of the server may have left it, and the id of another agent may lead
to the same directory.

`owner_found` says that the store found is the one that holds the record, in
every run in which no store draws an id in a millisecond, modulo `2 ^ 42`, of
which another has an id, no two agents have directories that touch, and nothing
that is found in a directory has an id that another agent has given.
-/
import Amind.Core.RecordCodec
import Amind.Core.SnowflakeOrder
import Amind.Lib.Paths
import Amind.Memory.Restart

namespace Amind
namespace Server

open Amind.Core Amind.Memory
open Paths (Apart)
open Run (run Along)

/-- What is in an agent's directory: the records its storage engine answers and
the ids in its index file. -/
structure AgentData (F : Type) where
  records : AList fun _ : UInt64 => MemoryRecord F
  indexed : UInt64 → Bool
  /-- The records were read with a length of 16 bits for the agent. -/
  fits : ∀ e ∈ records.entries, e.2.agentId.length ≤ WireFormat.MAX_SIZE

/-- The agents in the order the map is walked, their stores, where their
directories are, and the policy by which agents are created. -/
structure Engine (F : Type) where
  agents : List String
  memory : String → MemoryStore F
  storeConfig : Config F
  dirOf : String → List Text
  agentAutoCreate : Bool
  maxAgents : ℕ

inductive AgentError
  | alreadyExists (message : String)
  | thrown (message : String)
  deriving DecidableEq, Repr

namespace AgentData

variable {F : Type}

/-- A new directory. -/
def empty : AgentData F := ⟨∅, fun _ => false, fun _ h => absurd h List.not_mem_nil⟩

/-- The records are those of the agent. -/
def Of (d : AgentData F) (agent : String) : Prop := ∀ e ∈ d.records.entries, e.2.agentId = Utf8.bytes agent

instance (d : AgentData F) (agent : String) : Decidable (d.Of agent) :=
  inferInstanceAs (Decidable (∀ e ∈ d.records.entries, e.2.agentId = Utf8.bytes agent))

/-- The store on the directory, before anything is inserted or cached. -/
def onDisk (c : Config F) (d : AgentData F) : MemoryStore F :=
  { MemoryStore.new c with lsm := fun id => d.records.lookup id, hnsw := d.indexed }

/-- Insert a stored record that is alive, has an embedding and is missing from
the index. -/
def reconcile (s : MemoryStore F) (id : UInt64) : MemoryStore F :=
  if s.hnsw id then s
  else
    match s.lsm id with
    | some r => if r.isAlive = false ∨ r.embedding = [] then s else (s.hnswInsert id r.embedding).cachePut id r
    | none => s

/-- Open a store on the directory. -/
def init (c : Config F) (d : AgentData F) : MemoryStore F :=
  d.records.keys.foldl MemoryStore.warm (d.records.keys.foldl reconcile (d.onDisk c))

/-- What every step of opening keeps. -/
structure Loading (c : Config F) (d : AgentData F) (s : MemoryStore F) : Prop where
  config : s.config = c
  lsm : ∀ id, s.lsm id = d.records.lookup id
  idGen : s.idGen = (MemoryStore.new c).idGen
  fromDisk : s.FromDisk

variable {c : Config F} {d : AgentData F} {s : MemoryStore F}

theorem loading_onDisk (c : Config F) (d : AgentData F) : Loading c d (d.onDisk c) where
  config := rfl
  lsm := fun _ => rfl
  idGen := rfl
  fromDisk := fun id r h => by
    have hempty : (MemoryStore.new c).cache.lookup id = none := AList.lookup_empty id
    cases hempty.symm.trans h

theorem Loading.reconcile (h : Loading c d s) (id : UInt64) : Loading c d (reconcile s id) := by
  unfold AgentData.reconcile
  split
  · exact h
  · split
    · rename_i r hr
      split
      · exact h
      · have hdisk : (s.hnswInsert id r.embedding).FromDisk := by
          intro id' r' hc
          rw [MemoryStore.cache_hnswInsert] at hc
          rw [MemoryStore.lsm_hnswInsert]
          exact h.fromDisk id' r' hc
        refine ⟨?_, fun id' => ?_, ?_, hdisk.cachePut (by rw [MemoryStore.lsm_hnswInsert, hr])⟩
        · rw [MemoryStore.config_cachePut, MemoryStore.config_hnswInsert, h.config]
        · rw [MemoryStore.lsm_cachePut, MemoryStore.lsm_hnswInsert, h.lsm]
        · rw [← h.idGen]
          unfold MemoryStore.hnswInsert
          split <;> rfl
    · exact h

theorem Loading.warm (h : Loading c d s) (id : UInt64) : Loading c d (s.warm id) := by
  have hdisk := h.fromDisk.warm id
  obtain ⟨cache, hw⟩ := s.warm_eq id
  rw [hw] at hdisk ⊢
  exact ⟨h.config, h.lsm, h.idGen, hdisk⟩

/-- A store that is opened has the records of its directory. -/
theorem loading_init (c : Config F) (d : AgentData F) : Loading c d (d.init c) :=
  List.foldlRecOn (motive := Loading c d) d.records.keys MemoryStore.warm
    (List.foldlRecOn (motive := Loading c d) d.records.keys AgentData.reconcile (loading_onDisk c d)
      fun _ h id _ => h.reconcile id)
    fun _ h id _ => h.warm id

theorem Loading.contains_iff (h : Loading c d s) {id : UInt64} : s.contains id = true ↔ id ∈ d.records.keys := by
  have hlsm : (s.lsm id).isSome ↔ id ∈ d.records.keys := by
    rw [h.lsm, AList.lookup_isSome]
    exact AList.mem_keys
  rw [MemoryStore.contains_iff, ← hlsm]
  refine or_iff_right_of_imp fun hc => ?_
  obtain ⟨r, hr⟩ := Option.isSome_iff_exists.mp hc
  exact Option.isSome_of_eq_some (h.fromDisk id r hr)

end AgentData

namespace Engine

variable {F : Type}

/-- An engine with no agent. -/
def new (storeConfig : Config F) (dirOf : String → List Text) (agentAutoCreate : Bool) (maxAgents : ℕ) : Engine F where
  agents := []
  memory := fun _ => MemoryStore.new storeConfig
  storeConfig := storeConfig
  dirOf := dirOf
  agentAutoCreate := agentAutoCreate
  maxAgents := maxAgents

/-- Add an agent, with a store opened on what is in its directory. -/
def addAgent (e : Engine F) (agent : String) (found : AgentData F) : Engine F :=
  { e with
    agents := agent :: e.agents
    memory := Function.update e.memory agent (found.init e.storeConfig) }

def registerAgent (e : Engine F) (agent : String) (found : AgentData F) : Engine F × Except AgentError Unit :=
  if agent ∈ e.agents then (e, .error (.alreadyExists ("agent already registered: " ++ agent)))
  else (e.addAgent agent found, .ok ())

/-- The store of an agent, which is created if the policy allows it. -/
def getAgentStore (e : Engine F) (agent : String) (found : AgentData F) :
    Engine F × Except AgentError (MemoryStore F) :=
  if agent ∈ e.agents then (e, .ok (e.memory agent))
  else if agent ≠ "default" ∧ e.agentAutoCreate = false then
    (e, .error (.thrown ("Agent auto-creation disabled, unknown agent: " ++ agent)))
  else if e.maxAgents ≤ e.agents.length then
    (e, .error (.thrown ("Maximum agent limit reached (" ++ toString e.maxAgents ++ ")")))
  else (e.addAgent agent found, .ok (found.init e.storeConfig))

/-- The first agent whose store contains the id, with the agents walked in the
order given. -/
def findStoreForMemory (e : Engine F) (agents : List String) (id : UInt64) : Option String :=
  agents.find? fun a => (e.memory a).contains id

/-- A new agent has the records of its directory, and the others keep theirs. -/
theorem memory_addAgent (e : Engine F) {a : String} (ha : a ∉ e.agents) (d : AgentData F) :
    (e.addAgent a d).memory a = d.init e.storeConfig ∧ ∀ b ∈ e.agents, (e.addAgent a d).memory b = e.memory b := by
  refine ⟨Function.update_self .., fun b hb => ?_⟩
  have hne : b ≠ a := fun he => ha (he ▸ hb)
  exact Function.update_of_ne hne _ _

/-- The directory touches that of no agent there is. -/
def Elsewhere (e : Engine F) (a : String) : Prop := ∀ b ∈ e.agents, Apart (e.dirOf a) (e.dirOf b)

instance (e : Engine F) (a : String) : Decidable (e.Elsewhere a) :=
  decidable_of_iff (∀ b ∈ e.agents, ¬ e.dirOf a <+: e.dirOf b ∧ ¬ e.dirOf b <+: e.dirOf a)
    (forall₂_congr fun _ _ => Paths.apart_iff.symm)

end Engine

/-! ### Runs -/

/-- What happens to the engine. -/
inductive Request (F : Type)
  | registerAgent (agent : String) (found : AgentData F)
  | getAgentStore (agent : String) (found : AgentData F)
  | store (agent : String) (op : Op F)

/-- An id drawn: for which agent, at which reading of the clock. -/
structure Drawn where
  agent : String
  ms : ℤ
  id : UInt64
  deriving DecidableEq, Repr

/-- The engine and the ids of the records its agents have: those found in the
directories and those created. -/
structure History (F : Type) where
  engine : Engine F
  records : List (String × UInt64)

namespace History

variable {F : Type} {x : History F}

/-- No two agents' records have the same id, and every record is found in the
store that has it. -/
def OwnersFound (x : History F) : Prop :=
  (∀ y ∈ x.records, ∀ z ∈ x.records, y.1 ≠ z.1 → y.2 ≠ z.2) ∧
    ∀ y ∈ x.records, ∀ agents, agents.Perm x.engine.agents →
      x.engine.findStoreForMemory agents y.2 = some y.1

/-! ### What every step keeps -/

/-- The generators are those of worker 0, no two agents' records have one id,
each is stored with its agent, and a store contains no other. -/
structure Inv (x : History F) : Prop where
  worker : ∀ a ∈ x.engine.agents, (x.engine.memory a).idGen.workerId = 0
  apart : ∀ y ∈ x.records, ∀ z ∈ x.records, y.1 ≠ z.1 → y.2 ≠ z.2
  stored : ∀ y ∈ x.records, y.1 ∈ x.engine.agents ∧ ((x.engine.memory y.1).lsm y.2).isSome
  contains : ∀ a ∈ x.engine.agents, ∀ id, (x.engine.memory a).contains id = true → (a, id) ∈ x.records

theorem Inv.ownersFound (h : x.Inv) : x.OwnersFound := by
  refine ⟨h.apart, fun y hy agents hp => ?_⟩
  obtain ⟨hmem, hstored⟩ := h.stored y hy
  have hself : (x.engine.memory y.1).contains y.2 = true := MemoryStore.contains_iff.mpr (.inr hstored)
  -- any other store that contains the id has a record with it too
  have honly : ∀ a ∈ agents, (x.engine.memory a).contains y.2 = true → a = y.1 := by
    intro a ha hc
    by_contra hne
    exact h.apart _ (h.contains a (hp.mem_iff.mp ha) y.2 hc) y hy hne rfl
  unfold Engine.findStoreForMemory
  cases hf : agents.find? fun a => (x.engine.memory a).contains y.2 with
  | none =>
    rw [List.find?_eq_none] at hf
    exact absurd hself (hf y.1 (hp.mem_iff.mpr hmem))
  | some a =>
    have hc : (x.engine.memory a).contains y.2 = true := by simpa using List.find?_some hf
    rw [honly a (List.mem_of_find?_eq_some hf) hc]

end History

section Runs

variable {F : Type} [Floats F]

/-- One request. A call on the store of an agent there is not changes
nothing. -/
def Engine.step (e : Engine F) : Request F → Engine F
  | .registerAgent a d => (e.registerAgent a d).1
  | .getAgentStore a d => (e.getAgentStore a d).1
  | .store a op =>
    if a ∈ e.agents then { e with memory := Function.update e.memory a ((e.memory a).exec op) } else e

/-- The agent a request creates, with what is in its directory. -/
def Engine.opens (e : Engine F) : Request F → Option (String × AgentData F)
  | .registerAgent a d => if a ∈ e.agents then none else some (a, d)
  | .getAgentStore a d =>
    if a ∈ e.agents ∨ a ≠ "default" ∧ e.agentAutoCreate = false ∨ e.maxAgents ≤ e.agents.length then none
    else some (a, d)
  | .store _ _ => none

/-- The record a request creates. -/
def Engine.drawn (e : Engine F) : Request F → Option Drawn
  | .store a op =>
    if a ∈ e.agents then
      ((e.memory a).created op).map fun id => ⟨a, ((e.memory a).exec op).idGen.lastTimestampMs, id⟩
    else none
  | _ => none

namespace Engine

/-- A request that creates an agent adds it, and draws no id. -/
theorem step_opens {e : Engine F} {q : Request F} {o : String × AgentData F} (h : e.opens q = some o) :
    o.1 ∉ e.agents ∧ e.step q = e.addAgent o.1 o.2 ∧ e.drawn q = none := by
  cases q with
  | registerAgent a d =>
    obtain ⟨ha, heq⟩ := Option.ite_none_left_eq_some.mp h
    cases heq
    exact ⟨ha, congrArg Prod.fst (if_neg ha), rfl⟩
  | getAgentStore a d =>
    obtain ⟨hno, heq⟩ := Option.ite_none_left_eq_some.mp h
    cases heq
    obtain ⟨ha, hpolicy, hmax⟩ := not_or.mp hno |>.imp_right not_or.mp
    refine ⟨ha, ?_, rfl⟩
    show (e.getAgentStore a d).1 = _
    rw [getAgentStore, if_neg ha, if_neg hpolicy, if_neg hmax]
  | store a op => cases h

/-- A request that creates none is a call on a store or changes nothing. -/
theorem step_of_not_opens {e : Engine F} {q : Request F} (h : e.opens q = none) :
    (∃ a op, q = .store a op ∧ a ∈ e.agents) ∨ e.step q = e ∧ e.drawn q = none := by
  cases q with
  | registerAgent a d =>
    by_cases ha : a ∈ e.agents
    · exact .inr ⟨congrArg Prod.fst (if_pos ha), rfl⟩
    · rw [opens, if_neg ha] at h
      cases h
  | getAgentStore a d =>
    refine .inr ⟨?_, rfl⟩
    show (e.getAgentStore a d).1 = _
    unfold getAgentStore
    split
    · rfl
    · split
      · rfl
      · split
        · rfl
        · rw [opens, if_neg (by tauto)] at h
          cases h
  | store a op =>
    by_cases ha : a ∈ e.agents
    · exact .inl ⟨a, op, rfl, ha⟩
    · exact .inr ⟨if_neg ha, if_neg ha⟩

end Engine

namespace History

def step (x : History F) (q : Request F) : History F where
  engine := x.engine.step q
  records := x.records ++ ((x.engine.opens q).toList.flatMap fun o => o.2.records.keys.map fun id => (o.1, id)) ++
    (x.engine.drawn q).toList.map fun y => (y.agent, y.id)

/-- Records are stored under drawn ids. -/
def Generates : Request F → Prop
  | .store _ op => op.Generates
  | _ => True

instance : ∀ q : Request F, Decidable (Generates q)
  | .store _ op => inferInstanceAs (Decidable op.Generates)
  | .registerAgent _ _ | .getAgentStore _ _ => inferInstanceAs (Decidable True)

/-- An agent that is created has a directory of its own, and nothing in it has
the id of another agent's record. -/
def OpensApart (x : History F) (q : Request F) : Prop :=
  ∀ o ∈ x.engine.opens q, x.engine.Elsewhere o.1 ∧ ∀ id ∈ o.2.records.keys, ∀ z ∈ x.records, z.1 ≠ o.1 → z.2 ≠ id

instance (x : History F) (q : Request F) : Decidable (x.OpensApart q) :=
  have (o : String × AgentData F) : Decidable (∀ id ∈ o.2.records.keys, ∀ z ∈ x.records, z.1 ≠ o.1 → z.2 ≠ id) :=
    List.decidableBAll _ _
  inferInstanceAs (Decidable (∀ o ∈ x.engine.opens q, x.engine.Elsewhere o.1 ∧
    ∀ id ∈ o.2.records.keys, ∀ z ∈ x.records, z.1 ≠ o.1 → z.2 ≠ id))

/-- The request draws no id at a millisecond, modulo `2 ^ 42`, of which another
agent has one. -/
def DrawsApart (x : History F) (q : Request F) : Prop :=
  ∀ y ∈ x.engine.drawn q, ∀ z ∈ x.records, z.1 ≠ y.agent →
    ¬ SnowflakeGenerator.extractTimestamp z.2 ≡ y.ms [ZMOD 2 ^ 42]

instance (x : History F) (q : Request F) : Decidable (x.DrawsApart q) :=
  inferInstanceAs (Decidable (∀ y ∈ x.engine.drawn q, ∀ z ∈ x.records, z.1 ≠ y.agent →
    ¬ SnowflakeGenerator.extractTimestamp z.2 ≡ y.ms [ZMOD 2 ^ 42]))

/-! ### One request -/

variable {x : History F}

theorem mem_records_step {q : Request F} {y : String × UInt64} : y ∈ (x.step q).records ↔
    y ∈ x.records ∨ (∃ d, x.engine.opens q = some (y.1, d) ∧ y.2 ∈ d.records.keys) ∨
      ∃ ms, x.engine.drawn q = some ⟨y.1, ms, y.2⟩ := by
  obtain ⟨a, id⟩ := y
  simp only [History.step, List.mem_append, List.mem_flatMap, List.mem_map, Option.mem_toList,
    Prod.mk.injEq, Prod.exists, or_assoc]
  refine or_congr_right (or_congr ⟨?_, ?_⟩ ⟨?_, ?_⟩)
  · rintro ⟨b, d, ho, i, hi, rfl, rfl⟩
    exact ⟨d, ho, hi⟩
  · rintro ⟨d, ho, hi⟩
    exact ⟨a, d, ho, id, hi, rfl, rfl⟩
  · rintro ⟨⟨b, ms, i⟩, hy, rfl, rfl⟩
    exact ⟨ms, hy⟩
  · rintro ⟨ms, hy⟩
    exact ⟨⟨a, ms, id⟩, hy, rfl, rfl⟩

/-- An agent is created in a directory with no id of another agent's record. -/
theorem Inv.addAgent (h : x.Inv) {q : Request F} {a : String} {d : AgentData F} (ho : x.engine.opens q = some (a, d))
    (hd : ∀ id ∈ d.records.keys, ∀ z ∈ x.records, z.1 ≠ a → z.2 ≠ id) : (x.step q).Inv := by
  obtain ⟨ha, hstep, hdrawn⟩ := Engine.step_opens ho
  have hrecords : ∀ y, y ∈ (x.step q).records ↔ y ∈ x.records ∨ y.1 = a ∧ y.2 ∈ d.records.keys := by
    intro y
    rw [mem_records_step, ho, hdrawn]
    simp [eq_comm (a := a)]
  have hengine : (x.step q).engine = x.engine.addAgent a d := hstep
  obtain ⟨hself, hother⟩ := x.engine.memory_addAgent ha d
  have hload := AgentData.loading_init x.engine.storeConfig d
  refine ⟨fun b hb => ?_, fun y hy z hz hne => ?_, fun y hy => ?_, fun b hb id hc => ?_⟩
  · rw [hengine] at hb ⊢
    rcases List.mem_cons.mp hb with rfl | hb
    · rw [hself, hload.idGen]
      rfl
    · rw [hother b hb]
      exact h.worker b hb
  · rcases (hrecords y).mp hy with hy | ⟨hya, hy⟩ <;> rcases (hrecords z).mp hz with hz | ⟨hza, hz⟩
    · exact h.apart y hy z hz hne
    · exact hd z.2 hz y hy (hza ▸ hne)
    · exact (hd y.2 hy z hz (hya ▸ hne.symm)).symm
    · exact absurd (hya.trans hza.symm) hne
  · rw [hengine]
    rcases (hrecords y).mp hy with hy | ⟨hya, hy⟩
    · obtain ⟨hm, hs⟩ := h.stored y hy
      rw [hother _ hm]
      exact ⟨List.mem_cons_of_mem _ hm, hs⟩
    · rw [hya, hself, hload.lsm, AList.lookup_isSome]
      exact ⟨List.mem_cons_self, AList.mem_keys.mpr hy⟩
  · rw [hengine] at hb hc
    rw [hrecords]
    rcases List.mem_cons.mp hb with rfl | hb
    · rw [hself] at hc
      exact .inr ⟨rfl, hload.contains_iff.mp hc⟩
    · rw [hother b hb] at hc
      exact .inl (h.contains b hb id hc)

section Store

variable {a : String} {op : Op F}

theorem memory_store_self (ha : a ∈ x.engine.agents) :
    (x.step (.store a op)).engine.memory a = (x.engine.memory a).exec op := by
  simp [History.step, Engine.step, ha]

theorem memory_store_other (ha : a ∈ x.engine.agents) {b : String} (hb : b ≠ a) :
    (x.step (.store a op)).engine.memory b = x.engine.memory b := by
  simp [History.step, Engine.step, ha, hb]

theorem agents_store (ha : a ∈ x.engine.agents) :
    (x.step (.store a op)).engine.agents = x.engine.agents := by
  simp [History.step, Engine.step, ha]

/-- A call draws for the agent it is for. -/
theorem drawn_store (ha : a ∈ x.engine.agents) {y : Drawn} : x.engine.drawn (.store a op) = some y ↔
    (x.engine.memory a).created op = some y.id ∧
      y = ⟨a, ((x.engine.memory a).exec op).idGen.lastTimestampMs, y.id⟩ := by
  simp only [Engine.drawn, if_pos ha, Option.map_eq_some_iff]
  constructor
  · rintro ⟨id, hid, rfl⟩
    exact ⟨hid, rfl⟩
  · rintro ⟨hid, hy⟩
    exact ⟨y.id, hid, hy.symm⟩

theorem mem_records_store (ha : a ∈ x.engine.agents) {y : String × UInt64} :
    y ∈ (x.step (.store a op)).records ↔
      y ∈ x.records ∨ y.1 = a ∧ (x.engine.memory a).created op = some y.2 := by
  have hopens : x.engine.opens (.store a op) = none := rfl
  rw [mem_records_step, hopens]
  simp only [reduceCtorEq, false_and, exists_false, false_or, drawn_store ha, Drawn.mk.injEq, and_true]
  exact or_congr_right ⟨fun ⟨_, hid, hy, _⟩ => ⟨hy, hid⟩, fun ⟨hy, hid⟩ => ⟨_, hid, hy, rfl⟩⟩

/-- The id drawn tells the reading. -/
theorem Inv.drawn_modEq (h : x.Inv) (ha : a ∈ x.engine.agents) (hg : op.Generates) {id : UInt64}
    (hid : (x.engine.memory a).created op = some id) : SnowflakeGenerator.extractTimestamp id ≡
      ((x.engine.memory a).exec op).idGen.lastTimestampMs [ZMOD 2 ^ 42] := by
  rw [MemoryStore.created_pack hg hid, h.worker a ha]
  exact SnowflakeGenerator.extractTimestamp_pack_modEq _ (Nat.zero_le _) ((x.engine.memory a).exec op).idGen.sequence_le

/-- No record of another agent has the id that is drawn. -/
theorem Inv.ne_drawn (h : x.Inv) (ha : a ∈ x.engine.agents) (hg : op.Generates) (hd : x.DrawsApart (.store a op))
    {id : UInt64} (hid : (x.engine.memory a).created op = some id) {z : String × UInt64} (hz : z ∈ x.records)
    (hne : z.1 ≠ a) : z.2 ≠ id := by
  have happart := hd ⟨a, _, id⟩ ((drawn_store ha).mpr ⟨hid, rfl⟩) z hz hne
  intro heq
  rw [heq] at happart
  exact happart (h.drawn_modEq ha hg hid)

theorem Inv.store (h : x.Inv) (ha : a ∈ x.engine.agents) (hg : op.Generates) (hd : x.DrawsApart (.store a op)) :
    (x.step (.store a op)).Inv := by
  refine ⟨fun b hb => ?_, fun y hy z hz hne => ?_, fun y hy => ?_, fun b hb id hc => ?_⟩
  · rw [agents_store ha] at hb
    by_cases he : b = a
    · rw [he, memory_store_self ha, MemoryStore.workerId_exec]
      exact h.worker a ha
    · rw [memory_store_other ha he]
      exact h.worker b hb
  · rcases (mem_records_store ha).mp hy with hy | ⟨hya, hy⟩ <;> rcases (mem_records_store ha).mp hz with hz | ⟨hza, hz⟩
    · exact h.apart y hy z hz hne
    · exact h.ne_drawn ha hg hd hz hy (hza ▸ hne)
    · exact (h.ne_drawn ha hg hd hy hz (hya ▸ hne.symm)).symm
    · exact absurd (hya.trans hza.symm) hne
  · rw [agents_store ha]
    rcases (mem_records_store ha).mp hy with hy | ⟨hya, hy⟩
    · obtain ⟨hm, hs⟩ := h.stored y hy
      refine ⟨hm, ?_⟩
      by_cases he : y.1 = a
      · rw [he] at hs
        rw [he, memory_store_self ha]
        exact MemoryStore.stored_exec (.inl hs)
      · rw [memory_store_other ha he]
        exact hs
    · rw [hya, memory_store_self ha]
      exact ⟨ha, MemoryStore.stored_exec (.inr hy)⟩
  · rw [agents_store ha] at hb
    rw [mem_records_store ha]
    by_cases he : b = a
    · rw [he, memory_store_self ha] at hc
      rw [he]
      rcases MemoryStore.contains_exec hc with hc | hc
      · exact .inl (h.contains a ha id hc)
      · exact .inr ⟨rfl, hc⟩
    · rw [memory_store_other ha he] at hc
      exact .inl (h.contains b hb id hc)

end Store

theorem Inv.step (h : x.Inv) {q : Request F} (hg : Generates q) (ho : x.OpensApart q) (hd : x.DrawsApart q) :
    (x.step q).Inv := by
  cases hopens : x.engine.opens q with
  | some o => exact h.addAgent hopens (ho o hopens).2
  | none =>
    obtain ⟨a, op, rfl, ha⟩ | ⟨hsame, hdrawn⟩ := Engine.step_of_not_opens hopens
    · exact h.store ha hg hd
    · have hstep : x.step q = x := by
        unfold History.step
        rw [hopens, hsame, hdrawn]
        exact congrArg (History.mk x.engine) ((List.append_nil _).trans (List.append_nil _))
      rw [hstep]
      exact h

/-- An engine with no agent. -/
def start (storeConfig : Config F) (dirOf : String → List Text) (agentAutoCreate : Bool) (maxAgents : ℕ) : History F :=
  ⟨Engine.new storeConfig dirOf agentAutoCreate maxAgents, []⟩

/-- **No two agents' records have the same id, and every record is found in
the store that has it**, in every run in which no store draws an id in the
millisecond of another agent's, and the agents are created in directories that
are apart, with no id of another's record in them. -/
theorem owner_found (storeConfig : Config F) (dirOf : String → List Text) (agentAutoCreate : Bool) (maxAgents : ℕ)
    (qs : List (Request F))
    (h : Along step (fun x q => Generates q ∧ OpensApart x q ∧ DrawsApart x q)
      (start storeConfig dirOf agentAutoCreate maxAgents) qs) :
    (run step (start storeConfig dirOf agentAutoCreate maxAgents) qs).OwnersFound := by
  have hstart : Inv (start (F := F) storeConfig dirOf agentAutoCreate maxAgents) := ⟨nofun, nofun, nofun, nofun⟩
  have hrun := Run.run_inv step (I := fun _ x => Inv x) (fun _ x q hi hc => hi.step hc.1 hc.2.1 hc.2.2) qs [] _
    hstart h
  exact hrun.ownersFound

end History

end Runs

namespace History

/-- Two agents that each store a record, at the clock readings given. -/
def twoStores (clock clock' : ℤ) : List (Request ℤ) :=
  [.registerAgent "a" .empty, .registerAgent "b" .empty, .store "a" (.fastStore .zero [clock] 1),
    .store "b" (.fastStore .zero [clock'] 1)]

def noRecords : History ℤ := start ⟨0, 3, 6, 10, 7, 100, .whole⟩ (fun a => [Utf8.bytes a]) true 10

theorem owner_found_twoStores : OwnersFound (run step noRecords (twoStores 1735689600001 1735689600002)) :=
  owner_found ⟨0, 3, 6, 10, 7, 100, .whole⟩ (fun a => [Utf8.bytes a]) true 10
    (twoStores 1735689600001 1735689600002) (by decide)

/-- In the same millisecond the two stores draw the same id, and the record of
one agent is found with the other. -/
theorem sameId_twoStores :
    (run step noRecords (twoStores 1735689600001 1735689600001)).records = [("a", 4194304), ("b", 4194304)] ∧
      (run step noRecords (twoStores 1735689600001 1735689600001)).engine.findStoreForMemory ["b", "a"] 4194304 =
        some "b" :=
  ⟨by decide, by decide⟩

end History

end Server
end Amind
