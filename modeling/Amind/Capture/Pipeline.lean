/-
# Capturing

A capture pipeline is bound to one store. It stores what it is given under the
agent it is told, which need not be the agent of its store (`capture`). The
second stage reads the record again and stores what was extracted from it as
derived records, for the agent the record carries (`processFact`).

Whatever a pipeline writes carries the agent of a record in the store or the one
it was told (`Everywhere.capture`).
-/
import Amind.Capture.Intake
import Amind.Memory.Contents
import Amind.Memory.Versions

namespace Amind
namespace Capture

open Amind.Core Amind.Memory

/-- What capturing is given: the ids of the memories that are similar to a
request to forget, and the readings of the clocks. -/
structure Given where
  near : List UInt64 := []
  clock : List ℤ := []
  now : UInt32

/-- The text is stored. -/
def Patterns.takes (p : Patterns) (content : Text) : Bool := !isTransientContent p content && !isForgetRequest p content

/-- An extracted fact. -/
structure DerivedCandidate (F : Type) where
  content : Text
  importance : F
  sourceTier : SourceTier := .inference
  embedding : List F := []
  userMetadata : StringMap := .empty
  scope : MemoryScope := .private
  memoryType : MemoryType := .ephemeral

/-- What the write gate says of a fact. -/
structure GateVerdict (F : Type) where
  decision : GateDecision
  reason : Text := []
  marginalValue : F

/-- Facts that are rejected as nearly known are stored all the same. -/
def GateVerdict.downgraded {F : Type} (v : GateVerdict F) : GateVerdict F :=
  if v.decision = .rejected ∧
      (Utf8.bytes "Near-duplicate" <:+: v.reason ∨ Utf8.bytes "Low marginal value" <:+: v.reason) then
    { v with decision := .deferred }
  else v

section Definitions

variable {F : Type}

/-- Remove the memories found that are alive and the agent's. -/
def forget (s : MemoryStore F) (agentId : Text) (near : List UInt64) : MemoryStore F :=
  near.foldl (fun s id => if (s.load id).any fun r => r.isAlive && r.agentId = agentId then (s.remove id).1 else s) s

/-- The record of a derived fact. -/
def derivedRecord [Zero F] (half : F) (rawMemoryId : UInt64) (agentId userId : Text) (c : DerivedCandidate F)
    (v : GateVerdict F) : MemoryRecord F :=
  { MemoryRecord.zero with
    content := c.content
    agentId := agentId
    userId := userId
    scope := c.scope
    memoryType := c.memoryType
    tier := .shortTerm
    layer := .derived
    sourceTier := c.sourceTier
    importance := c.importance
    confidenceLevel := if v.decision = .deferred then .stale else .inferred
    confidenceScore := half
    gateDecision := v.decision
    marginalValue := v.marginalValue
    parentId := rawMemoryId
    embedding := c.embedding
    userMetadata := c.userMetadata }

/-- The first stage. Its result is what storing came to, if it came to that. -/
def capture [Zero F] (p : Patterns) (half : F) (s : MemoryStore F) (q : Request) (g : Given) :
    MemoryStore F × Option Stored :=
  if isTransientContent p q.content then (s, none)
  else if isForgetRequest p q.content then (forget s q.agentId g.near, none)
  else
    let st := s.fastStore (newRecord half q) g.clock g.now
    (st.1, some st.2)

/-- One fact of the second stage: it is stored unless the gate rejects it. -/
def processFact [Zero F] (half : F) (s : MemoryStore F) (rawMemoryId : UInt64) (agentId userId : Text)
    (c : DerivedCandidate F) (v : GateVerdict F) (g : Given) : MemoryStore F × Option Stored :=
  if v.downgraded.decision = .rejected then (s, none)
  else
    let st := s.fastStore (derivedRecord half rawMemoryId agentId userId c v.downgraded) g.clock g.now
    (st.1, some st.2)

end Definitions

/-! ### The agents of what is stored -/

section Agents

open WireFormat

/-- The record carries the agent's name, which is not too long to come back. -/
def Carries {F : Type} (t : Text) (_ : UInt64) (r : MemoryRecord F) : Prop := r.agentId = t ∧ t.length ≤ MAX_SIZE

/-- What was stored still is, and the records carry the agent if they did
before. -/
structure Follows {F : Type} (t : Text) (s s' : MemoryStore F) : Prop where
  config : s'.config = s.config
  carries : Everywhere (Carries t) s → Everywhere (Carries t) s'
  stored : ∀ id, (s.lsm id).isSome → (s'.lsm id).isSome

variable {F D : Type} [Floats F] {nf : Numbers F D} {hnf : nf.Lawful} {t : Text} {s s' s'' : MemoryStore F}
  {p : Patterns} {half : F} {q : Request} {g : Given}

omit [Floats F] in
theorem Follows.refl (t : Text) (s : MemoryStore F) : Follows t s s := ⟨rfl, id, fun _ h => h⟩

omit [Floats F] in
theorem Follows.trans (h : Follows t s s') (h' : Follows t s' s'') : Follows t s s'' :=
  ⟨h'.config.trans h.config, h'.carries ∘ h.carries, fun id hs => h'.stored id (h.stored id hs)⟩

theorem respects_carries (hnf : nf.Lawful) (t : Text) : Respects (wireOf nf hnf) (Carries (F := F) t) where
  version := fun _ r r' hv h => by
    have hagent : r.agentId = r'.agentId := congrArg (fun r => r.agentId) hv
    exact ⟨hagent ▸ h.1, h.2⟩
  wire := fun _ r h => by
    have hclip : (r.wire (wireOf nf hnf)).agentId = r.agentId.take MAX_SIZE := (clip_fields hnf r.toBody).2.2
    refine ⟨?_, h.2⟩
    rw [hclip, h.1]
    exact take_eq_iff.mpr h.2

/-- A call follows if the records it writes carry the agent. -/
theorem follows_exec (hw : s.config.wire = wireOf nf hnf) (op : Op F)
    (h : Everywhere (Carries t) s → ∀ id r, (id, r) ∈ s.wrote op → Carries t id r) : Follows t s (s.exec op) where
  config := MemoryStore.config_exec s op
  carries := fun he => he.exec (hw ▸ respects_carries hnf t) (h he)
  stored := fun _ hs => MemoryStore.stored_exec (.inl hs)

/-- So does one that changes a record and leaves its agent. -/
theorem follows_modify (hw : s.config.wire = wireOf nf hnf) (op : Op F) (i : UInt64)
    {f : MemoryRecord F → MemoryRecord F} (hf : ∀ r, (f r).agentId = r.agentId)
    (h : ∀ id r, (id, r) ∈ s.wrote op → (id, r) ∈ (s.load i).toList.map fun r => (i, f r)) :
      Follows t s (s.exec op) := by
  refine follows_exec hw op fun he id r hm => ?_
  obtain ⟨r₀, h₀, heq⟩ := List.mem_map.mp (h id r hm)
  obtain ⟨rfl, rfl⟩ := Prod.mk.inj heq
  obtain ⟨hagent, hlen⟩ := he.load (Option.mem_toList.mp h₀)
  exact ⟨(hf r₀).trans hagent, hlen⟩

theorem follows_remove (hw : s.config.wire = wireOf nf hnf) (i : UInt64) : Follows t s (s.remove i).1 :=
  follows_modify hw (.remove i) i (f := MemoryRecord.markTombstone) (fun _ => rfl) fun _ _ h => h

theorem follows_setEmbedding (hw : s.config.wire = wireOf nf hnf) (i : UInt64) (v : List F) :
    Follows t s (s.setEmbedding i v) :=
  follows_modify hw (.setEmbedding i v) i (f := MemoryStore.withEmbedding v) (fun _ => rfl) fun _ _ h => h

theorem follows_boostImportance (hw : s.config.wire = wireOf nf hnf) (i : UInt64) (delta : F) :
    Follows t s (s.boostImportance i delta) := by
  refine follows_modify hw (.boostImportance i delta) i (f := MemoryStore.boosted delta) (fun _ => rfl) fun _ _ h => ?_
  unfold MemoryStore.wrote at h
  dsimp only at h
  split at h
  · exact h
  · cases h

/-- Storing a record follows if it carries the agent, or is not stored. -/
theorem follows_fastStore (hw : s.config.wire = wireOf nf hnf) {r : MemoryRecord F} {clock : List ℤ} {now : UInt32}
    (h : (s.storedUnder r clock).isSome → Carries t 0 r) : Follows t s (s.fastStore r clock now).1 := by
  refine follows_exec hw (.fastStore r clock now) fun _ id r' hm => ?_
  obtain ⟨i, hi, heq⟩ := List.mem_map.mp hm
  obtain ⟨rfl, rfl⟩ := Prod.mk.inj heq
  have hid : s.storedUnder r clock = some i :=
    (MemoryStore.id_fastStore r clock now).symm.trans (Option.mem_toList.mp hi)
  have hagent := congrArg Body.agentId (Opened.toBody_prepared r i now).1
  obtain ⟨hr, hlen⟩ := h (Option.isSome_of_eq_some hid)
  exact ⟨hagent.trans hr, hlen⟩

/-- A record that was stored carries what comes back of the agent's name. -/
theorem stored_fastStore (hw : s.config.wire = wireOf nf hnf) {r : MemoryRecord F} {clock : List ℤ} (now : UInt32)
    {i : UInt64} (h : s.storedUnder r clock = some i) :
    ∃ r', (s.fastStore r clock now).1.lsm i = some r' ∧ r'.agentId = r.agentId.take MAX_SIZE := by
  have hid : (s.fastStore r clock now).2.id = some i := (MemoryStore.id_fastStore r clock now).trans h
  have hok : (s.fastStore r clock now).2 = .ok i := by
    revert hid
    cases (s.fastStore r clock now).2 with
    | ok j => exact fun hid => congrArg Stored.ok (Option.some.inj hid)
    | error _ => exact fun hid => by cases hid
    | thrown => exact fun hid => by cases hid
    | waiting => exact fun hid => by cases hid
  obtain ⟨r', hr', hv⟩ := (Opened.copies_fastStore hok).stored
  refine ⟨r', hr', ?_⟩
  have hagent := congrArg (fun r => r.agentId) hv
  have hconfig : (s.exec (.fastStore r clock now)).config = s.config := MemoryStore.config_exec s _
  rw [hconfig, hw] at hagent
  have hbody := congrArg Body.agentId (congrArg (clip nf) (Opened.toBody_prepared r i now).1)
  exact hagent.trans (hbody.trans (clip_fields hnf r.toBody).2.2)

theorem follows_forget (hw : s.config.wire = wireOf nf hnf) (agentId : Text) (near : List UInt64) :
    Follows t s (forget s agentId near) := by
  have hstep : ∀ (near : List UInt64) (s : MemoryStore F), s.config.wire = wireOf nf hnf →
      Follows t s (forget s agentId near) := by
    intro near
    induction near with
    | nil => exact fun s _ => .refl t s
    | cons i near ih =>
      intro s hw
      unfold forget
      rw [List.foldl_cons]
      split
      · have hremove : Follows t s (s.remove i).1 := follows_remove hw i
        exact hremove.trans (ih _ ((congrArg Config.wire hremove.config).trans hw))
      · exact ih s hw
  exact hstep near s hw

/-! ### The two stages -/

/-- What the first stage stores, and when. -/
theorem id_capture : (capture p half s q g).2.bind Stored.id =
    if p.takes q.content then (s.idGen.nextId g.clock).id else none := by
  have hid := MemoryStore.id_fastStore (s := s) (newRecord half q) g.clock g.now
  unfold capture Patterns.takes
  cases isTransientContent p q.content with
  | true => rfl
  | false =>
    cases isForgetRequest p q.content with
    | true => rfl
    | false => exact hid

/-- The first stage follows if it is told the agent of the store, or stores
nothing. -/
theorem follows_capture (hw : s.config.wire = wireOf nf hnf)
    (h : p.takes q.content = true → (s.idGen.nextId g.clock).id.isSome → q.agentId = t ∧ t.length ≤ MAX_SIZE) :
    Follows t s (capture p half s q g).1 := by
  revert h
  unfold capture Patterns.takes
  cases isTransientContent p q.content with
  | true => exact fun _ => .refl t s
  | false =>
    cases isForgetRequest p q.content with
    | true => exact fun _ => follows_forget hw q.agentId g.near
    | false => exact fun h => follows_fastStore hw (h rfl)

/-- What was captured is stored for the agent that was told. -/
theorem stored_capture (hw : s.config.wire = wireOf nf hnf) {i : UInt64}
    (h : (capture p half s q g).2.bind Stored.id = some i) :
    ∃ r', (capture p half s q g).1.lsm i = some r' ∧ r'.agentId = q.agentId.take MAX_SIZE := by
  revert h
  unfold capture
  cases isTransientContent p q.content with
  | true => exact fun h => by cases h
  | false =>
    cases isForgetRequest p q.content with
    | true => exact fun h => by cases h
    | false =>
      intro h
      exact stored_fastStore hw g.now ((MemoryStore.id_fastStore (newRecord half q) g.clock g.now).symm.trans h)

/-- The second stage follows if the record it works on carries the agent. -/
theorem follows_processFact (hw : s.config.wire = wireOf nf hnf) {rawMemoryId : UInt64} {agentId userId : Text}
    {c : DerivedCandidate F} {v : GateVerdict F} (h : agentId = t ∧ t.length ≤ MAX_SIZE) :
    Follows t s (processFact half s rawMemoryId agentId userId c v g).1 := by
  unfold processFact
  split
  · exact .refl t s
  · exact follows_fastStore hw fun _ => h

theorem stored_processFact (hw : s.config.wire = wireOf nf hnf) {rawMemoryId : UInt64} {agentId userId : Text}
    {c : DerivedCandidate F} {v : GateVerdict F} {i : UInt64}
    (h : (processFact half s rawMemoryId agentId userId c v g).2.bind Stored.id = some i) :
    ((processFact half s rawMemoryId agentId userId c v g).1.lsm i).isSome := by
  revert h
  unfold processFact
  split
  · exact fun h => by cases h
  · intro h
    have hid := MemoryStore.id_fastStore (s := s) (derivedRecord half rawMemoryId agentId userId c v.downgraded) g.clock
      g.now
    obtain ⟨r', hr', -⟩ := stored_fastStore hw g.now (hid.symm.trans h)
    exact Option.isSome_of_eq_some hr'

end Agents

end Capture
end Amind
