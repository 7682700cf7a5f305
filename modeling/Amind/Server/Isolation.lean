/-
# Isolation of the agents

Every agent has a store and a capture pipeline of its own. What is posted for an
agent goes to its own pipeline; but the sessions of all agents have the one
pipeline their manager was made with, that of the agent "default", imported
lines go to the store of that agent whatever agent they name, and so does an
event that is resurrected. A store is opened on what is in its agent's directory.

`isolated_iff` says when every store holds records of its own agent only, and
every memory is in the store of the agent it was captured for: exactly if the
facts of sessions, the imported lines and the resurrected events that are stored
are for "default", and what is found in an agent's directory is the agent's. The
steps of the requests and of the tasks after them come in any order. No two
agents' directories touch; when that is so `separate_iff` says.
-/
import Amind.Capture.Pipeline
import Amind.Memory.Import
import Amind.Observability.MemoryEvent
import Amind.Server.AgentDirs
import Amind.Sessions.Manager

namespace Amind
namespace Server

open Amind.Core Amind.Memory Amind.Capture Amind.Sessions Amind.Observability WireFormat
open Run (run Along)

/-- What the server was made with. Scores that are not set are `half`. -/
structure Settings (F D : Type) where
  numbers : Numbers F D
  patterns : Patterns
  half : F

/-- What a request has left to do: an extracted fact of a session, a message for
an agent's pipeline, an imported line, or the second stage of a capture with the
record it last read. -/
inductive Work (F : Type)
  | fact (q : Capture.Request)
  | message (agent : String) (q : Capture.Request)
  | line (text : Text)
  | refine (agent : String) (id : UInt64) (record : Option (MemoryRecord F))

/-- What the second stage does with its store. -/
inductive Access (F : Type)
  | peek
  | embed (embedding : List F)
  | derive (c : DerivedCandidate F) (v : GateVerdict F) (g : Given)
  | remove (id : UInt64)
  | boost (id : UInt64) (delta : F)

/-- What happens. Work is done item by item, each named by its place. -/
inductive Event (F : Type)
  | registerAgent (agent : String) (found : AgentData F)
  | getAgentStore (agent : String) (found : AgentData F)
  | store (agent : String) (q : Capture.Request) (g : Given)
  | intercept (agent : String) (userId : Utf8Text) (messages : List (Utf8Text × Utf8Text))
  | startSession (agentId userId : Utf8Text) (clock : List ℤ) (now : UInt32)
  | turn (id : UInt64) (userInput agentResponse : Utf8Text) (answer : Option Text) (now : UInt32)
  | closeSession (id : UInt64)
  | importMemories (jsonl : Text)
  | resurrect (source : MemoryEvent) (content : Option Text) (g : Given)
  | perform (i : ℕ) (g : Given)
  | access (i : ℕ) (what : Access F)

/-- The agents with their stores, the sessions, the work that is left, and the
memories stored so far with the agent each was for. -/
structure World (F : Type) where
  engine : Engine F
  sessions : SessionManager
  work : List (Work F)
  stored : List (Text × UInt64)

def Engine.setMemory {F : Type} (e : Engine F) (a : String) (s : MemoryStore F) : Engine F :=
  { e with memory := Function.update e.memory a s }

/-- A client can mark a message as an error. -/
def isError (m : StringMap) : Bool := m.entries.lookup (Utf8.lit "is_error") = some (Utf8.lit "true")

/-- The messages of a conversation that are captured. Those of the assistant are
marked. -/
def interceptCapture (agent : String) (userId : Utf8Text) (messages : List (Utf8Text × Utf8Text)) :
    List Capture.Request :=
  (messages.filter fun m => (m.1 = Utf8.lit "user" ∨ m.1 = Utf8.lit "assistant") ∧ m.2.val ≠ []).map fun m =>
    { content := m.2.val
      agentId := Utf8.bytes agent
      userId := userId.val
      userMetadata :=
        if m.1 = Utf8.lit "assistant" then
          ⟨[(Utf8.lit "role", Utf8.lit "assistant")], List.pairwise_singleton _ _⟩
        else .empty }

/-- What is captured again for an event of the gate that was rejected or
deferred. -/
def resurrected (source : MemoryEvent) (content : Option Text) : Option Capture.Request :=
  if source.kind = .gate ∧ (source.status = .rejected ∨ source.status = .deferred) then
    some
      { content := content.getD source.summary
        agentId := (source.attrs.lookup "agent_id").getD (Utf8.bytes "default_agent")
        userId := (source.attrs.lookup "user_id").getD (Utf8.bytes "anonymous")
        scope := (source.attrs.lookup "scope").elim .private scopeFromString
        memoryType := (source.attrs.lookup "memory_type").elim .ephemeral memoryTypeFromString }
  else none

namespace World

variable {F D : Type}

/-- The server is started, with the agent "default". -/
def start (c : Config F) (dirOf : String → List Text) (agentAutoCreate : Bool) (maxAgents : ℕ)
    (found : AgentData F) : World F where
  engine := (Engine.new c dirOf agentAutoCreate maxAgents).addAgent "default" found
  sessions := .new
  work := []
  stored := []

/-- Keep what storing for an agent came to in the store of `a`. -/
def accept (x : World F) (a : String) (agentId : Text) (c : MemoryStore F × Option Stored) : World F :=
  { x with
    engine := x.engine.setMemory a c.1
    stored := ((c.2.bind Stored.id).map fun id => (agentId, id)).toList ++ x.stored }

section Steps

variable [Floats F] (k : Settings F D) (x : World F)

/-- Capture with the pipeline of `a`. The second stage of what is stored is left
to do. -/
def capture (a : String) (q : Capture.Request) (g : Given) : World F :=
  let c := Capture.capture k.patterns k.half (x.engine.memory a) q g
  { x.accept a q.agentId c with
    work := x.work ++ ((c.2.bind Stored.id).map fun id => .refine a id none).toList }

/-- Import a line into the store of "default". -/
def importOne (text : Text) (g : Given) : World F :=
  match importLine k.numbers k.half text with
  | some r =>
    let st := (x.engine.memory "default").fastStore r g.clock g.now
    x.accept "default" r.agentId (st.1, some st.2)
  | none => x

/-- One access of the second stage of the memory `id` of the agent `a`. -/
def accessOne (i : ℕ) (a : String) (id : UInt64) (record : Option (MemoryRecord F)) : Access F → World F
  | .peek => { x with work := x.work.set i (.refine a id ((x.engine.memory a).load id)) }
  | .embed v => { x with engine := x.engine.setMemory a ((x.engine.memory a).setEmbedding id v) }
  | .derive c v g =>
    match record with
    | some r => x.accept a r.agentId (processFact k.half (x.engine.memory a) id r.agentId r.userId c v g)
    | none => x
  | .remove id' => { x with engine := x.engine.setMemory a ((x.engine.memory a).remove id').1 }
  | .boost id' delta => { x with engine := x.engine.setMemory a ((x.engine.memory a).boostImportance id' delta) }

/-- Do an item of work, or end a second stage. -/
def performOne (w : Work F) (g : Given) : World F :=
  match w with
  | .fact q => x.capture k "default" q g
  | .message a q => x.capture k a q g
  | .line text => x.importOne k text g
  | .refine _ _ _ => x

def step : Event F → World F
  | .registerAgent a d => { x with engine := (x.engine.registerAgent a d).1 }
  | .getAgentStore a d => { x with engine := (x.engine.getAgentStore a d).1 }
  | .store a q g =>
    if a ∈ x.engine.agents ∧ isError q.userMetadata = false then
      x.capture k a { q with agentId := Utf8.bytes a } g
    else x
  | .intercept a userId messages =>
    if a ∈ x.engine.agents then
      { x with work := x.work ++ (interceptCapture a userId messages).map (.message a) }
    else x
  | .startSession agentId userId clock now =>
    { x with sessions := (x.sessions.startSession agentId userId clock now).1 }
  | .turn id userInput agentResponse answer now =>
    if userInput.val = [] ∨ agentResponse.val = [] then x
    else
      let b := x.sessions.beginTurn id now
      { x with
        sessions := b.1
        work := x.work ++ b.2.toList.flatMap fun s => (extractedFacts k.numbers.text userInput.val answer).map fun f =>
          .fact { content := f, agentId := s.agentId.val, userId := s.userId.val, memoryType := .userProfile } }
  | .closeSession id => { x with sessions := x.sessions.closeSession id }
  | .importMemories jsonl => { x with work := x.work ++ (importLines jsonl).map .line }
  | .resurrect source content g =>
    match resurrected source content with
    | some q => x.capture k "default" q g
    | none => x
  | .perform i g =>
    match x.work[i]? with
    | some w => { x with work := x.work.eraseIdx i }.performOne k w g
    | none => x
  | .access i t =>
    match x.work[i]? with
    | some (.refine a id r) => x.accessOne k i a id r t
    | _ => x

end Steps

/-- Every store holds records of its own agent only, and every memory is in the
store of the agent it was stored for, and in no other. -/
structure Isolated (x : World F) : Prop where
  carries : ∀ a ∈ x.engine.agents, Everywhere (fun _ r => r.agentId = Utf8.bytes a) (x.engine.memory a)
  found : ∀ f ∈ x.stored, ∃ a ∈ x.engine.agents, Utf8.bytes a = f.1 ∧ (x.engine.memory a).contains f.2 = true ∧
    ∀ b ∈ x.engine.agents, b ≠ a → ∀ id r, (x.engine.memory b).load id = some r → r.agentId ≠ f.1

section Condition

variable [Floats F] (k : Settings F D) (x : World F)

/-- The text is stored if it is captured with the pipeline of `a`. -/
def Takes (a : String) (content : Text) (g : Given) : Prop :=
  k.patterns.takes content = true ∧ ((x.engine.memory a).idGen.nextId g.clock).id.isSome

instance (a : String) (content : Text) (g : Given) : Decidable (x.Takes k a content g) :=
  inferInstanceAs (Decidable (_ ∧ _))

/-- An item of work that is stored is for the agent of the store. -/
def KeepsWork (g : Given) : Work F → Prop
  | .fact q => x.Takes k "default" q.content g → q.agentId = Utf8.bytes "default"
  | .message a q => x.Takes k a q.content g → (Utf8.bytes a).length ≤ MAX_SIZE
  | .line text => ∀ r ∈ importLine k.numbers k.half text,
    ((x.engine.memory "default").storedUnder r g.clock).isSome → r.agentId = Utf8.bytes "default"
  | .refine _ _ _ => True

instance (g : Given) : ∀ w, Decidable (x.KeepsWork k g w)
  | .fact q => inferInstanceAs (Decidable (x.Takes k "default" q.content g → q.agentId = Utf8.bytes "default"))
  | .message a q => inferInstanceAs (Decidable (x.Takes k a q.content g → (Utf8.bytes a).length ≤ MAX_SIZE))
  | .line text => inferInstanceAs (Decidable (∀ r ∈ importLine k.numbers k.half text,
      ((x.engine.memory "default").storedUnder r g.clock).isSome → r.agentId = Utf8.bytes "default"))
  | .refine _ _ _ => inferInstanceAs (Decidable True)

/-- What is stored in the store of "default" is for "default", and what an agent
that is created finds in its directory is the agent's. The name of an agent for
which a memory is stored is not too long to come back. -/
def Keeps : Event F → Prop
  | .registerAgent a d => ∀ o ∈ x.engine.opens (.registerAgent a d), o.2.Of o.1
  | .getAgentStore a d => ∀ o ∈ x.engine.opens (.getAgentStore a d), o.2.Of o.1
  | .store a q g => a ∈ x.engine.agents → isError q.userMetadata = false → x.Takes k a q.content g →
    (Utf8.bytes a).length ≤ MAX_SIZE
  | .resurrect source content g => ∀ q ∈ resurrected source content, x.KeepsWork k g (.fact q)
  | .perform i g => ∀ w ∈ x.work[i]?, x.KeepsWork k g w
  | _ => True

instance : ∀ e, Decidable (x.Keeps k e)
  | .store a q g => inferInstanceAs (Decidable (a ∈ x.engine.agents → isError q.userMetadata = false →
      x.Takes k a q.content g → (Utf8.bytes a).length ≤ MAX_SIZE))
  | .resurrect source content g =>
    inferInstanceAs (Decidable (∀ q ∈ resurrected source content, x.KeepsWork k g (.fact q)))
  | .perform i g => inferInstanceAs (Decidable (∀ w ∈ x.work[i]?, x.KeepsWork k g w))
  | .registerAgent a d => inferInstanceAs (Decidable (∀ o ∈ x.engine.opens (.registerAgent a d), o.2.Of o.1))
  | .getAgentStore a d => inferInstanceAs (Decidable (∀ o ∈ x.engine.opens (.getAgentStore a d), o.2.Of o.1))
  | .intercept _ _ _ | .startSession _ _ _ _ | .turn _ _ _ _ _ | .closeSession _ | .importMemories _ | .access _ _ =>
      inferInstanceAs (Decidable True)

/-- An agent that is created has a directory of its own. -/
def OpensElsewhere : Event F → Prop
  | .registerAgent a d => ∀ o ∈ x.engine.opens (.registerAgent a d), x.engine.Elsewhere o.1
  | .getAgentStore a d => ∀ o ∈ x.engine.opens (.getAgentStore a d), x.engine.Elsewhere o.1
  | _ => True

instance : ∀ e, Decidable (x.OpensElsewhere e)
  | .registerAgent a d => inferInstanceAs (Decidable (∀ o ∈ x.engine.opens (.registerAgent a d),
    x.engine.Elsewhere o.1))
  | .getAgentStore a d => inferInstanceAs (Decidable (∀ o ∈ x.engine.opens (.getAgentStore a d),
    x.engine.Elsewhere o.1))
  | .store _ _ _ | .resurrect _ _ _ | .perform _ _ | .intercept _ _ _ | .startSession _ _ _ _ | .turn _ _ _ _ _
  | .closeSession _ | .importMemories _ | .access _ _ => inferInstanceAs (Decidable True)

end Condition

/-! ### What every step keeps -/

theorem default_short : (Utf8.bytes "default").length ≤ MAX_SIZE := by decide

/-- The name of an agent that comes back as "default" is that. -/
theorem eq_of_take {t : Text} (h : t.take MAX_SIZE = Utf8.bytes "default") : t = Utf8.bytes "default" := by
  have hlen := congrArg List.length h
  have hseven : (Utf8.bytes "default").length = 7 := by decide
  rw [List.length_take, hseven] at hlen
  have hshort : t.length ≤ MAX_SIZE := by
    unfold MAX_SIZE at hlen ⊢
    omega
  rwa [take_eq_iff.mpr hshort] at h

end World

/-- Work that is bound to a pipeline is for the agent of its store. -/
def Work.Owned {F : Type} (agents : List String) : Work F → Prop
  | .fact _ => True
  | .message a q => a ∈ agents ∧ q.agentId = Utf8.bytes a
  | .line _ => True
  | .refine a id r => a ∈ agents ∧ ∀ r' ∈ r, Carries (Utf8.bytes a) id r'

theorem Work.Owned.mono {F : Type} {agents agents' : List String} (h : ∀ a ∈ agents, a ∈ agents') :
    ∀ {w : Work F}, w.Owned agents → w.Owned agents'
  | .fact _, _ => trivial
  | .message a _, hw => ⟨h a hw.1, hw.2⟩
  | .line _, _ => trivial
  | .refine a _ _, hw => ⟨h a hw.1, hw.2⟩

namespace World

section Proofs

variable {F D : Type} [Floats F] {k : Settings F D} {hnf : k.numbers.Lawful} {x : World F}

/-- The stores hold records of their own agents, of names that come back. -/
structure Inv (hnf : k.numbers.Lawful) (x : World F) : Prop where
  default : "default" ∈ x.engine.agents
  storeWire : x.engine.storeConfig.wire = wireOf k.numbers hnf
  wire : ∀ a ∈ x.engine.agents, (x.engine.memory a).config.wire = wireOf k.numbers hnf
  carries : ∀ a ∈ x.engine.agents, Everywhere (Carries (Utf8.bytes a)) (x.engine.memory a)
  owned : ∀ w ∈ x.work, w.Owned x.engine.agents
  stored : ∀ f ∈ x.stored, ∃ a ∈ x.engine.agents, Utf8.bytes a = f.1 ∧ ((x.engine.memory a).lsm f.2).isSome

omit [Floats F] in
theorem memory_setMemory_self (e : Engine F) (a : String) (s : MemoryStore F) : (e.setMemory a s).memory a = s :=
  Function.update_self ..

omit [Floats F] in
theorem memory_setMemory_other (e : Engine F) {a b : String} (h : b ≠ a) (s : MemoryStore F) :
    (e.setMemory a s).memory b = e.memory b :=
  Function.update_of_ne h _ _

theorem Inv.isolated (h : x.Inv hnf) : x.Isolated where
  carries := fun a ha => ⟨fun id r hr => ((h.carries a ha).stored id r hr).1,
    fun id r hr => ((h.carries a ha).cached id r hr).1⟩
  found := fun f hf => by
    obtain ⟨a, ha, hname, hstored⟩ := h.stored f hf
    refine ⟨a, ha, hname, MemoryStore.contains_iff.mpr (.inr hstored), fun b hb hne id r hr hagent => ?_⟩
    have hb' : r.agentId = Utf8.bytes b := ((h.carries b hb).load hr).1
    exact hne (Utf8.bytes_injective (hb'.symm.trans (hagent.trans hname.symm)))

/-- Changing the store of an agent. -/
theorem Inv.setMemory (h : x.Inv hnf) {a : String} (ha : a ∈ x.engine.agents) {s : MemoryStore F}
    (hs : Follows (Utf8.bytes a) (x.engine.memory a) s) : Inv hnf { x with engine := x.engine.setMemory a s } where
  default := h.default
  storeWire := h.storeWire
  wire := fun b hb => by
    by_cases he : b = a
    · subst he
      rw [memory_setMemory_self, hs.config]
      exact h.wire b hb
    · rw [memory_setMemory_other _ he]
      exact h.wire b hb
  carries := fun b hb => by
    by_cases he : b = a
    · subst he
      rw [memory_setMemory_self]
      exact hs.carries (h.carries b hb)
    · rw [memory_setMemory_other _ he]
      exact h.carries b hb
  owned := h.owned
  stored := fun f hf => by
    obtain ⟨b, hb, hname, hstored⟩ := h.stored f hf
    refine ⟨b, hb, hname, ?_⟩
    by_cases he : b = a
    · subst he
      rw [memory_setMemory_self]
      exact hs.stored f.2 hstored
    · rw [memory_setMemory_other _ he]
      exact hstored

/-- Storing for the agent of the store. -/
theorem Inv.accept (h : x.Inv hnf) {a : String} (ha : a ∈ x.engine.agents) {agentId : Text}
    {c : MemoryStore F × Option Stored} (hc : Follows (Utf8.bytes a) (x.engine.memory a) c.1)
    (hid : ∀ i, c.2.bind Stored.id = some i → agentId = Utf8.bytes a ∧ (c.1.lsm i).isSome) :
    (x.accept a agentId c).Inv hnf := by
  have hset := h.setMemory ha hc
  refine ⟨hset.default, hset.storeWire, hset.wire, hset.carries, hset.owned, fun f hf => ?_⟩
  rcases List.mem_append.mp hf with hf | hf
  · obtain ⟨i, hi, rfl⟩ := Option.map_eq_some_iff.mp (Option.mem_toList.mp hf)
    obtain ⟨hname, hstored⟩ := hid i hi
    refine ⟨a, ha, hname.symm, ?_⟩
    show (((x.engine.setMemory a c.1).memory a).lsm i).isSome
    rw [memory_setMemory_self]
    exact hstored
  · exact hset.stored f hf

/-- More work, or less. -/
theorem Inv.work (h : x.Inv hnf) {ws : List (Work F)} (hw : ∀ w ∈ ws, w ∈ x.work ∨ w.Owned x.engine.agents) :
    Inv hnf { x with work := ws } :=
  ⟨h.default, h.storeWire, h.wire, h.carries, fun w hm => (hw w hm).elim (h.owned w) id, h.stored⟩

/-- Capturing with the pipeline of an agent, for that agent if it is stored. -/
theorem Inv.capture (h : x.Inv hnf) {a : String} (ha : a ∈ x.engine.agents) {q : Capture.Request} {g : Given}
    (hq : x.Takes k a q.content g → q.agentId = Utf8.bytes a ∧ (Utf8.bytes a).length ≤ MAX_SIZE) :
    (x.capture k a q g).Inv hnf := by
  have hfollows : Follows (Utf8.bytes a) (x.engine.memory a)
      (Capture.capture k.patterns k.half (x.engine.memory a) q g).1 :=
    follows_capture (h.wire a ha) fun htakes hdrawn => hq ⟨htakes, hdrawn⟩
  have haccept : (x.accept a q.agentId (Capture.capture k.patterns k.half (x.engine.memory a) q g)).Inv hnf := by
    refine h.accept ha hfollows fun i hi => ?_
    obtain ⟨r', hr', -⟩ := stored_capture (h.wire a ha) hi
    refine ⟨(hq ?_).1, Option.isSome_of_eq_some hr'⟩
    rw [id_capture] at hi
    split at hi
    · rename_i htakes
      exact ⟨htakes, Option.isSome_of_eq_some hi⟩
    · cases hi
  refine haccept.work fun w hw => ?_
  rcases List.mem_append.mp hw with hw | hw
  · exact .inl hw
  · obtain ⟨i, -, rfl⟩ := Option.map_eq_some_iff.mp (Option.mem_toList.mp hw)
    exact .inr ⟨ha, fun _ hr => by cases hr⟩

/-- If every store holds records of its own agent only, what was captured was for
the agent of the store. -/
theorem Inv.captured (h : x.Inv hnf) {a : String} (ha : a ∈ x.engine.agents) {q : Capture.Request} {g : Given}
    (hx : (x.capture k a q g).Isolated) (ht : x.Takes k a q.content g) :
    q.agentId.take MAX_SIZE = Utf8.bytes a := by
  obtain ⟨i, hi⟩ := Option.isSome_iff_exists.mp ht.2
  have hid : (Capture.capture k.patterns k.half (x.engine.memory a) q g).2.bind Stored.id = some i := by
    rw [id_capture, if_pos ht.1, hi]
  obtain ⟨r', hr', hagent⟩ := stored_capture (h.wire a ha) hid
  have hcarries := hx.carries a ha
  have hmemory : (x.capture k a q g).engine.memory a =
      (Capture.capture k.patterns k.half (x.engine.memory a) q g).1 := memory_setMemory_self ..
  rw [hmemory] at hcarries
  exact hagent.symm.trans (hcarries.stored i r' hr')

omit [Floats F] in
/-- A store that is opened has the records of its directory. -/
theorem carries_init {c : Config F} {d : AgentData F} {a : String} :
    Everywhere (fun _ r => r.agentId = Utf8.bytes a) (d.init c) ↔ d.Of a := by
  have hload := AgentData.loading_init c d
  constructor
  · intro h e he
    exact h.stored e.1 e.2 ((hload.lsm e.1).trans (AList.mem_lookup_iff.mpr he))
  · intro h
    have hstored : ∀ id r, (d.init c).lsm id = some r → r.agentId = Utf8.bytes a := fun id r hr =>
      h ⟨id, r⟩ (AList.mem_lookup_iff.mp ((hload.lsm id).symm.trans hr))
    exact ⟨hstored, fun id r hr => hstored id r (hload.fromDisk id r hr)⟩

omit [Floats F] in
theorem everywhere_carries_init {c : Config F} {d : AgentData F} {a : String} (h : d.Of a) :
    Everywhere (Carries (Utf8.bytes a)) (d.init c) := by
  have hload := AgentData.loading_init c d
  have hstored : ∀ id r, (d.init c).lsm id = some r → Carries (Utf8.bytes a) id r := by
    intro id r hr
    have he : ⟨id, r⟩ ∈ d.records.entries := AList.mem_lookup_iff.mp ((hload.lsm id).symm.trans hr)
    have hagent : r.agentId = Utf8.bytes a := h ⟨id, r⟩ he
    exact ⟨hagent, hagent ▸ d.fits ⟨id, r⟩ he⟩
  exact ⟨hstored, fun id r hr => hstored id r (hload.fromDisk id r hr)⟩

theorem Inv.addAgent (h : x.Inv hnf) {a : String} (ha : a ∉ x.engine.agents) {d : AgentData F} (hd : d.Of a) :
    Inv hnf { x with engine := x.engine.addAgent a d } := by
  obtain ⟨hself, hother⟩ := x.engine.memory_addAgent ha d
  refine ⟨List.mem_cons_of_mem _ h.default, h.storeWire, fun b hb => ?_, fun b hb => ?_,
    fun w hw => (h.owned w hw).mono fun b hb => List.mem_cons_of_mem _ hb, fun f hf => ?_⟩
  · show ((x.engine.addAgent a d).memory b).config.wire = _
    rcases List.mem_cons.mp hb with rfl | hb
    · rw [hself, (AgentData.loading_init _ d).config]
      exact h.storeWire
    · rw [hother b hb]
      exact h.wire b hb
  · show Everywhere _ ((x.engine.addAgent a d).memory b)
    rcases List.mem_cons.mp hb with rfl | hb
    · rw [hself]
      exact everywhere_carries_init hd
    · rw [hother b hb]
      exact h.carries b hb
  · obtain ⟨b, hb, hname, hstored⟩ := h.stored f hf
    refine ⟨b, List.mem_cons_of_mem _ hb, hname, ?_⟩
    show (((x.engine.addAgent a d).memory b).lsm f.2).isSome
    rw [hother b hb]
    exact hstored

/-- A request for an agent, which may create it. -/
theorem Inv.opening (h : x.Inv hnf) {q : Request F} (hq : ∀ a op, q ≠ .store a op)
    (hof : ∀ o ∈ x.engine.opens q, o.2.Of o.1) : Inv hnf { x with engine := x.engine.step q } := by
  cases ho : x.engine.opens q with
  | some o =>
    obtain ⟨ha, hstep, -⟩ := Engine.step_opens ho
    rw [hstep]
    exact h.addAgent ha (hof o ho)
  | none =>
    obtain ⟨a, op, heq, -⟩ | ⟨hsame, -⟩ := Engine.step_of_not_opens ho
    · exact absurd heq (hq a op)
    · rw [hsame]
      exact h

/-- If every store holds records of its own agent only, what an agent found in
its directory was the agent's. -/
theorem of_opening {q : Request F} (hx : Isolated { x with engine := x.engine.step q }) :
    ∀ o ∈ x.engine.opens q, o.2.Of o.1 := by
  intro o ho
  obtain ⟨ha, hstep, -⟩ := Engine.step_opens ho
  rw [hstep] at hx
  have hcarries := hx.carries o.1 List.mem_cons_self
  have hself : (x.engine.addAgent o.1 o.2).memory o.1 = o.2.init x.engine.storeConfig :=
    (x.engine.memory_addAgent ha o.2).1
  rw [hself] at hcarries
  exact carries_init.mp hcarries

/-- Importing a line, for "default" if it is stored. -/
theorem Inv.importOne (h : x.Inv hnf) {text : Text} {g : Given}
    (hr : ∀ r ∈ importLine k.numbers k.half text,
      ((x.engine.memory "default").storedUnder r g.clock).isSome → r.agentId = Utf8.bytes "default") :
    (x.importOne k text g).Inv hnf := by
  unfold World.importOne
  cases hline : importLine k.numbers k.half text with
  | none => exact h
  | some r =>
    have hagent := hr r hline
    refine h.accept h.default (follows_fastStore (h.wire _ h.default) fun hs => ⟨hagent hs, default_short⟩) fun i hi => ?_
    have hid : (x.engine.memory "default").storedUnder r g.clock = some i :=
      (MemoryStore.id_fastStore r g.clock g.now).symm.trans hi
    obtain ⟨r', hr', -⟩ := stored_fastStore (h.wire _ h.default) g.now hid
    exact ⟨hagent (Option.isSome_of_eq_some hid), Option.isSome_of_eq_some hr'⟩

theorem Inv.imported (h : x.Inv hnf) {text : Text} {g : Given} (hx : (x.importOne k text g).Isolated)
    {r : MemoryRecord F} (hr : importLine k.numbers k.half text = some r)
    (hs : ((x.engine.memory "default").storedUnder r g.clock).isSome) : r.agentId = Utf8.bytes "default" := by
  obtain ⟨i, hi⟩ := Option.isSome_iff_exists.mp hs
  obtain ⟨r', hr', hagent⟩ := stored_fastStore (h.wire _ h.default) g.now hi
  have hone : x.importOne k text g = x.accept "default" r.agentId
      (((x.engine.memory "default").fastStore r g.clock g.now).1,
        some ((x.engine.memory "default").fastStore r g.clock g.now).2) := by
    unfold World.importOne
    rw [hr]
  rw [hone] at hx
  have hcarries := hx.carries "default" h.default
  have hmemory : (x.accept "default" r.agentId (((x.engine.memory "default").fastStore r g.clock g.now).1,
      some ((x.engine.memory "default").fastStore r g.clock g.now).2)).engine.memory "default" =
      ((x.engine.memory "default").fastStore r g.clock g.now).1 := memory_setMemory_self ..
  rw [hmemory] at hcarries
  exact eq_of_take (hagent.symm.trans (hcarries.stored i r' hr'))

/-- The second stage keeps to the agent of its store. -/
theorem Inv.accessOne (h : x.Inv hnf) {i : ℕ} {a : String} {id : UInt64} {r : Option (MemoryRecord F)}
    (hw : (Work.refine a id r).Owned x.engine.agents) (t : Access F) : (x.accessOne k i a id r t).Inv hnf := by
  obtain ⟨ha, hr⟩ := hw
  have hwire := h.wire a ha
  cases t with
  | peek =>
    refine h.work fun w hw => (List.mem_or_eq_of_mem_set hw).imp_right fun he => ?_
    rw [he]
    exact ⟨ha, fun r' hr' => (h.carries a ha).load hr'⟩
  | embed v => exact h.setMemory ha (follows_setEmbedding hwire id v)
  | derive c v g =>
    cases r with
    | none => exact h
    | some r =>
      obtain ⟨hagent, hlen⟩ := hr r rfl
      refine h.accept ha (follows_processFact hwire ⟨hagent, hlen⟩) fun i hi => ⟨hagent, ?_⟩
      exact stored_processFact hwire hi
  | remove id' => exact h.setMemory ha (follows_remove hwire id')
  | boost id' delta => exact h.setMemory ha (follows_boostImportance hwire id' delta)

theorem Inv.erase (h : x.Inv hnf) (i : ℕ) : Inv hnf { x with work := x.work.eraseIdx i } :=
  h.work fun _ hw => .inl (List.mem_of_mem_eraseIdx hw)

theorem Inv.step (h : x.Inv hnf) {e : Event F} (hk : x.Keeps k e) : (x.step k e).Inv hnf := by
  cases e with
  | registerAgent a d =>
    show Inv hnf { x with engine := x.engine.step (.registerAgent a d) }
    exact h.opening (fun _ _ h => by cases h) hk
  | getAgentStore a d =>
    show Inv hnf { x with engine := x.engine.step (.getAgentStore a d) }
    exact h.opening (fun _ _ h => by cases h) hk
  | store a q g =>
    unfold World.step
    dsimp only
    split
    · rename_i ha
      exact h.capture ha.1 fun ht => ⟨rfl, hk ha.1 ha.2 ht⟩
    · exact h
  | intercept a userId messages =>
    unfold World.step
    dsimp only
    split
    · rename_i ha
      refine h.work fun w hw => (List.mem_append.mp hw).imp_right fun hw => ?_
      obtain ⟨q, hq, rfl⟩ := List.mem_map.mp hw
      obtain ⟨m, -, rfl⟩ := List.mem_map.mp hq
      exact ⟨ha, rfl⟩
    · exact h
  | startSession agentId userId clock now => exact ⟨h.default, h.storeWire, h.wire, h.carries, h.owned, h.stored⟩
  | turn id userInput agentResponse answer now =>
    unfold World.step
    dsimp only
    split
    · exact h
    · refine ⟨h.default, h.storeWire, h.wire, h.carries, fun w hw => ?_, h.stored⟩
      rcases List.mem_append.mp hw with hw | hw
      · exact h.owned w hw
      · obtain ⟨s, -, hw⟩ := List.mem_flatMap.mp hw
        obtain ⟨f, -, rfl⟩ := List.mem_map.mp hw
        trivial
  | closeSession id => exact ⟨h.default, h.storeWire, h.wire, h.carries, h.owned, h.stored⟩
  | importMemories jsonl =>
    refine h.work fun w hw => (List.mem_append.mp hw).imp_right fun hw => ?_
    obtain ⟨l, -, rfl⟩ := List.mem_map.mp hw
    trivial
  | resurrect source content g =>
    unfold World.step
    dsimp only
    cases hq : resurrected source content with
    | none => exact h
    | some q =>
      exact h.capture h.default fun ht => ⟨hk q hq ht, default_short⟩
  | perform i g =>
    unfold World.step
    dsimp only
    cases hw : x.work[i]? with
    | none => exact h
    | some w =>
      have hwork := hk w hw
      have herase := h.erase i
      cases w with
      | fact q =>
        exact herase.capture h.default fun ht => ⟨hwork ht, default_short⟩
      | message a q =>
        obtain ⟨ha, hq⟩ := h.owned _ (List.mem_of_getElem? hw)
        exact herase.capture ha fun ht => ⟨hq, hwork ht⟩
      | line text => exact herase.importOne hwork
      | refine a id r => exact herase
  | access i t =>
    unfold World.step
    dsimp only
    cases hw : x.work[i]? with
    | none => exact h
    | some w =>
      cases w with
      | refine a id r => exact h.accessOne (h.owned _ (List.mem_of_getElem? hw)) t
      | fact q => exact h
      | message a q => exact h
      | line text => exact h

/-- A step that does not meet the condition puts a record of another agent into a
store. -/
theorem Inv.keeps (h : x.Inv hnf) {e : Event F} (hx : (x.step k e).Isolated) : x.Keeps k e := by
  cases e with
  | registerAgent a d =>
    have hopen : Isolated { x with engine := x.engine.step (.registerAgent a d) } := hx
    exact of_opening hopen
  | getAgentStore a d =>
    have hopen : Isolated { x with engine := x.engine.step (.getAgentStore a d) } := hx
    exact of_opening hopen
  | store a q g =>
    intro ha herror ht
    unfold World.step at hx
    dsimp only at hx
    rw [if_pos ⟨ha, herror⟩] at hx
    exact take_eq_iff.mp (h.captured (q := { q with agentId := Utf8.bytes a }) ha hx ht)
  | resurrect source content g =>
    intro q hq ht
    unfold World.step at hx
    dsimp only at hx
    rw [hq] at hx
    exact eq_of_take (h.captured h.default hx ht)
  | perform i g =>
    intro w hw
    unfold World.step at hx
    dsimp only at hx
    rw [hw] at hx
    have herase := h.erase i
    cases w with
    | fact q => exact fun ht => eq_of_take (herase.captured h.default hx ht)
    | message a q =>
      obtain ⟨ha, hq⟩ := h.owned _ (List.mem_of_getElem? hw)
      intro ht
      have htake := herase.captured ha hx ht
      rw [hq] at htake
      exact take_eq_iff.mp htake
    | line text => exact fun r hr hs => herase.imported hx hr hs
    | refine a id r => trivial
  | _ => trivial

theorem inv_start (hnf : k.numbers.Lawful) (c : Config F) (dirOf : String → List Text) (agentAutoCreate : Bool)
    (maxAgents : ℕ) {found : AgentData F} (h : found.Of "default") :
    (start { c with wire := wireOf k.numbers hnf } dirOf agentAutoCreate maxAgents found).Inv hnf where
  default := List.mem_cons_self
  storeWire := rfl
  wire := fun a ha => by
    rw [List.mem_singleton.mp ha]
    exact congrArg Config.wire (AgentData.loading_init _ found).config
  carries := fun a ha => by
    rw [List.mem_singleton.mp ha]
    exact everywhere_carries_init h
  owned := fun w hw => absurd hw List.not_mem_nil
  stored := fun f hf => absurd hf List.not_mem_nil

omit [Floats F] in
theorem of_isolated_start {c : Config F} {dirOf : String → List Text} {agentAutoCreate : Bool} {maxAgents : ℕ}
    {found : AgentData F} (h : (start c dirOf agentAutoCreate maxAgents found).Isolated) : found.Of "default" :=
  carries_init.mp (h.carries "default" List.mem_cons_self)

end Proofs

end World

/-- **Physical isolation of the agents, for what is for "default".** In every
state of a run each store holds records of its own agent only, and each memory is
in the store of its agent and in no other, if and only if every fact of a session,
every imported line and every resurrected event that is stored is for "default",
and an agent finds no record of another in its directory. The directories are
apart, and names of agents must come back whole. -/
theorem isolated_iff {F D : Type} [Floats F] (k : Settings F D) (hnf : k.numbers.Lawful) (c : Config F)
    (dirOf : String → List Text) (agentAutoCreate : Bool) (maxAgents : ℕ) (found : AgentData F) (es : List (Event F))
    (hdirs : Along (World.step k) World.OpensElsewhere
      (.start { c with wire := wireOf k.numbers hnf } dirOf agentAutoCreate maxAgents found) es) :
    (∀ before, before <+: es →
      (run (World.step k) (.start { c with wire := wireOf k.numbers hnf } dirOf agentAutoCreate maxAgents found)
        before).Isolated) ↔
    found.Of "default" ∧ Along (World.step k) (World.Keeps k)
      (.start { c with wire := wireOf k.numbers hnf } dirOf agentAutoCreate maxAgents found) es := by
  have hiff := fun hof : found.Of "default" =>
    Run.along_iff_of_inv (I := fun _ (y : World F) => y.Inv hnf) (P := fun _ (y : World F) => y.Isolated)
      (fun _ _ _ hy _ hk => hy.step hk) (fun _ _ hy => hy.isolated) (fun _ _ _ hy _ hx => hy.keeps hx)
      (World.inv_start hnf c dirOf agentAutoCreate maxAgents hof) hdirs
  constructor
  · intro h
    have hof := World.of_isolated_start (h [] List.nil_prefix)
    exact ⟨hof, (hiff hof).mp h⟩
  · rintro ⟨hof, hkeeps⟩
    exact (hiff hof).mpr hkeeps

/-! ### Two agents -/

def silentBits : Settings UInt32 Empty := ⟨bits, .silent, 0x3F000000⟩

def likesTea : Capture.Request where
  content := Utf8.bytes "likes green tea"
  agentId := Utf8.bytes "pyclaw"
  userId := Utf8.bytes "ann"

/-- Something is posted for "pyclaw", a session of "default" has a fact, and the
second stage of what was posted stores another. -/
def oneEach : List (Event UInt32) :=
  [.getAgentStore "pyclaw" .empty, .store "pyclaw" likesTea ⟨[], [1735689600001], 7⟩,
    .startSession (Utf8.lit "default") (Utf8.lit "ann") [1735689600002] 7,
    .turn (SnowflakeGenerator.pack 1735689600002 1 0) (Utf8.lit "I like green tea.") (Utf8.lit "Noted.")
      (some (bits.text.dump (.obj [(Utf8.lit "facts", .arr [.str (Utf8.lit "likes green tea")])]))) 8,
    .perform 1 ⟨[], [1735689600003], 8⟩, .access 0 .peek,
    .access 0 (.derive ⟨Utf8.bytes "drinks tea", 0, .inference, [], .empty, .private, .ephemeral⟩ ⟨.accepted, [], 0⟩
      ⟨[], [1735689600004], 9⟩)]

/-- The server with the agents' directories in `/srv/agents`. -/
def fresh : World UInt32 :=
  .start fourCached (fun a => directory [] (agentDir (Utf8.bytes "/srv") (Utf8.bytes a))) true 100 .empty

theorem isolated_oneEach : (run (World.step silentBits) fresh oneEach).Isolated :=
  (isolated_iff silentBits lawful_bits fourCached _ true 100 .empty oneEach (by decide)).mpr ⟨by decide, by decide⟩
    oneEach (List.prefix_refl _)

/-- A session of "pyclaw" has a fact. -/
def sessionFact : List (Event UInt32) :=
  [.getAgentStore "pyclaw" .empty, .startSession (Utf8.lit "pyclaw") (Utf8.lit "ann") [1735689600001] 7,
    .turn (SnowflakeGenerator.pack 1735689600001 1 0) (Utf8.lit "I like green tea.") (Utf8.lit "Noted.")
      (some (bits.text.dump (.obj [(Utf8.lit "facts", .arr [.str (Utf8.lit "likes green tea")])]))) 8,
    .perform 0 ⟨[], [1735689600002], 8⟩]

/-- It is in the store of "default". -/
theorem sessionFact_misplaced : ¬ (run (World.step silentBits) fresh sessionFact).Isolated := by
  intro h
  have hagents : "default" ∈ (run (World.step silentBits) fresh sessionFact).engine.agents := by
    decide
  have hother : ((run (World.step silentBits) fresh sessionFact).engine.memory "default").lsm
      (SnowflakeGenerator.pack 1735689600002 0 0) |>.any (·.agentId ≠ Utf8.bytes "default") := by decide
  obtain ⟨r, hr, hne⟩ := (Option.any_eq_true _ _).mp hother
  exact of_decide_eq_true hne ((h.carries "default" hagents).stored _ r hr)

end Server
end Amind
