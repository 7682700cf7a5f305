/-
# What the capture pipeline logs

The first stage logs what it stored, and the second the embedding and, of each fact,
what the reconciler decided and what the gate said. The contents that go into an event
are shortened there. What the language model wrote goes into it as it is, which is well
formed, and so does the text of an error of a provider, which need not be: it has the
first bytes of whatever the provider sent.

`serialisable_storeEvent` and its like say when an event can be written.

Key definitions: `WriteGate.evaluate`, `Fact.events`.
-/
import Amind.Capture.Reconciler
import Amind.Observability.Serialisation
import Amind.Provider.Fallback

namespace Amind

namespace Provider

def ErrorCode.name : ErrorCode → String
  | .ok => "Ok"
  | .invalidArgument => "InvalidArgument"
  | .notFound => "NotFound"
  | .alreadyExists => "AlreadyExists"
  | .corruptedData => "CorruptedData"
  | .crcMismatch => "CrcMismatch"
  | .ioError => "IOError"
  | .walError => "WalError"
  | .lsmError => "LsmError"
  | .vectorError => "VectorError"
  | .graphError => "GraphError"
  | .providerError => "ProviderError"
  | .providerTimeout => "ProviderTimeout"
  | .providerUnavailable => "ProviderUnavailable"
  | .queueFull => "QueueFull"
  | .queueEmpty => "QueueEmpty"
  | .conflictDetected => "ConflictDetected"
  | .staleMemory => "StaleMemory"
  | .sessionNotFound => "SessionNotFound"
  | .sessionClosed => "SessionClosed"
  | .configError => "ConfigError"
  | .internalError => "InternalError"

def Error.toString (e : Error) : Core.Text :=
  Utf8.bytes e.code.name ++ if e.message = [] then [] else Utf8.bytes ": " ++ e.message

/-- The text of an error is well formed if its message is. -/
theorem Error.valid_toString {e : Error} : Utf8.valid e.toString = true ↔ Utf8.valid e.message = true := by
  rw [toString, Utf8.valid_append (Utf8.valid_bytes _)]
  split
  · next h => rw [h]
  · rw [Utf8.valid_append (Utf8.valid_bytes _)]

end Provider

namespace Capture

open Amind.Core Amind.Memory Amind.Observability

/-! ### The gate -/

def gateDecisionToString : GateDecision → String
  | .accepted => "Accepted"
  | .rejected => "Rejected"
  | .deferred => "Deferred"

namespace WriteGate

structure Config (F : Type) where
  duplicateThreshold : F
  lowValueThreshold : F
  deferredThreshold : F
  shadowMode : Bool := true

section Evaluate

variable {F : Type} [FloatOps F] (cfg : Config F)

/-- In shadow mode everything is accepted, and what would be done is added to the
reason. -/
def shadowed (would : String) (v : GateVerdict F) : GateVerdict F :=
  if cfg.shadowMode ∧ v.decision ≠ .accepted then
    { v with decision := .accepted, reason := v.reason ++ Utf8.bytes (" [shadow: would " ++ would ++ "]") }
  else v

/-- What is said of a candidate, from the memories that are similar to it and what it
adds to them. -/
def evaluate (p : Patterns) (content : Text) (neighbours : List (UInt64 × F)) (marginalValue : F) : GateVerdict F :=
  if isTransientContent p content then
    shadowed cfg "reject" ⟨.rejected, Utf8.bytes "Transient/noise content (greeting, acknowledgment, etc.)", 0⟩
  else
    match neighbours.find? fun nb => cfg.duplicateThreshold ≤ nb.2 with
    | some (id, similarity) =>
      shadowed cfg "reject"
        ⟨.rejected, Utf8.bytes "Near-duplicate of memory #" ++ Utf8.bytes (toString id.toNat) ++
          Utf8.bytes " (similarity=" ++ toText similarity ++ Utf8.bytes ")", 0⟩
    | none =>
      if marginalValue < cfg.lowValueThreshold then
        shadowed cfg "reject"
          ⟨.rejected, Utf8.bytes "Low marginal value (" ++ toText marginalValue ++ Utf8.bytes ")", marginalValue⟩
      else if marginalValue < cfg.deferredThreshold then
        shadowed cfg "defer"
          ⟨.deferred, Utf8.bytes "Uncertain marginal value (" ++ toText marginalValue ++ Utf8.bytes ")", marginalValue⟩
      else
        ⟨.accepted, Utf8.bytes "Sufficient marginal value (" ++ toText marginalValue ++ Utf8.bytes ")", marginalValue⟩

variable {cfg}

omit [FloatOps F] in
theorem valid_shadowed {would : String} {v : GateVerdict F} (h : Utf8.valid v.reason = true) :
    Utf8.valid (shadowed cfg would v).reason = true := by
  unfold shadowed
  split
  · rw [Utf8.valid_append h]
    exact Utf8.valid_bytes _
  · exact h

/-- The reason is well formed, if numbers are written so. -/
theorem valid_evaluate (htext : ∀ x : F, Utf8.valid (toText x) = true) (p : Patterns) (content : Text)
    (neighbours : List (UInt64 × F)) (marginalValue : F) :
    Utf8.valid (evaluate cfg p content neighbours marginalValue).reason = true := by
  have hvalue : ∀ (front : String) (x : F), Utf8.valid (Utf8.bytes front ++ toText x ++ Utf8.bytes ")") = true := by
    intro front x
    rw [List.append_assoc, Utf8.valid_append (Utf8.valid_bytes _), Utf8.valid_append (htext x)]
    exact Utf8.valid_bytes _
  unfold evaluate
  split
  · exact valid_shadowed (Utf8.valid_bytes _)
  · split
    · refine valid_shadowed ?_
      rw [List.append_assoc, List.append_assoc, List.append_assoc, Utf8.valid_append (Utf8.valid_bytes _),
        Utf8.valid_append (Utf8.valid_bytes _), ← List.append_assoc]
      exact hvalue _ _
    · split
      · exact valid_shadowed (hvalue _ _)
      · split
        · exact valid_shadowed (hvalue _ _)
        · exact hvalue _ _

end Evaluate

end WriteGate

/-! ### Events -/

def reconcileOpToString : ReconcileOp → String
  | .ADD => "ADD"
  | .REPLACE => "REPLACE"
  | .RETRACT => "RETRACT"
  | .REINFORCE => "REINFORCE"
  | .NOOP => "NOOP"

/-- What is logged when the first stage stored a record. -/
def storeEvent (memoryId : UInt64) (q : Request) : MemoryEvent where
  memoryId := memoryId
  traceId := memoryId
  agentId := q.agentId
  kind := .store
  status := .ok
  summary := truncateUtf8 q.content 80
  attrs := [("memory_type", (memoryTypeToString q.memoryType).val), ("scope", (scopeToString q.scope).val)]

/-- What is logged of an embedding: the memory as it is read again, or the error. -/
def embedEvent (memoryId traceId : UInt64) (embedMs : UInt32) (agentId : Text) :
    Except Provider.Error Text → MemoryEvent
  | .ok content =>
    { memoryId, traceId, agentId, kind := .embed, status := .ok, durationMs := embedMs
      summary := truncateUtf8 content 80 }
  | .error e =>
    { memoryId, traceId, agentId, kind := .embed, status := .failed, durationMs := embedMs
      attrs := [("error", e.toString)] }

/-- The digits behind the first place in a reason that names a duplicate. -/
def conflictWithId (reason : Text) : Option Text :=
  reason.tails.findSome? fun t =>
    let words := Utf8.bytes "Near-duplicate of memory #"
    let digits := (t.drop words.length).takeWhile Json.isDigit
    if words <+: t ∧ digits ≠ [] then some digits else none

section Facts

variable {F D : Type}

def reconcileEvent (derivedId traceId : UInt64) (agentId : Text) (c : DerivedCandidate F) (neighbours : ℕ)
    (d : ReconcileDecision) : MemoryEvent where
  memoryId := derivedId
  traceId := traceId
  agentId := agentId
  kind := .reconcile
  status := if d.op = .NOOP then .noOp else .ok
  summary := truncateUtf8 c.content 80
  attrs :=
    [("neighbour_count", Utf8.bytes (toString neighbours)), ("op", Utf8.bytes (reconcileOpToString d.op)),
      ("rationale", d.rationale), ("target_id", Utf8.bytes (toString d.targetId.toNat))]

def gateEvent (derivedId traceId : UInt64) (agentId : Text) (c : DerivedCandidate F) (v : GateVerdict F)
    (reconciled : Option ReconcileDecision) : MemoryEvent where
  memoryId := derivedId
  traceId := traceId
  agentId := agentId
  kind := .gate
  status :=
    match v.decision with
    | .accepted => .ok
    | .rejected => .rejected
    | .deferred => .deferred
  summary := truncateUtf8 c.content 80
  attrs :=
    (conflictWithId v.reason).toList.map (Prod.mk "conflict_with_id") ++
    [("decision", Utf8.bytes (gateDecisionToString v.decision)), ("layer", Utf8.bytes "Derived"),
      ("memory_type", (memoryTypeToString c.memoryType).val), ("reason", v.reason)] ++
    (reconciled.toList.flatMap fun d =>
      [("reconcile_op", Utf8.bytes (reconcileOpToString d.op)), ("reconcile_rationale", d.rationale),
        ("reconcile_target_id", Utf8.bytes (toString d.targetId.toNat))]) ++
    [("scope", (scopeToString c.scope).val)]

def temporalMarkers : List Text :=
  [Utf8.bytes "之前的", Utf8.bytes "旧的", Utf8.bytes "以前的", Utf8.bytes "过去的", Utf8.bytes "原来", Utf8.bytes "曾经",
    Utf8.bytes "previous", Utf8.bytes "former", Utf8.bytes "old passport", Utf8.bytes "old phone"]

/-- A replacement by a fact that lacks the words about time of what was said is none. -/
def safeguarded (raw candidate : Text) (d : ReconcileDecision) : ReconcileDecision :=
  if d.op = .REPLACE ∧ (∃ m ∈ temporalMarkers, m <:+: raw) ∧ ¬ ∃ m ∈ temporalMarkers, m <:+: candidate then
    { d with
      op := .NOOP
      targetIds := []
      targetId := 0
      rationale :=
        Utf8.bytes "temporal qualifier in raw input stripped by extractor; stripped fact not stored; " ++ d.rationale }
  else d

/-- A fact that was extracted from a record, with what the gate and the reconciler
are given for it: the similar memories, what it adds to them, and the neighbours. What
is decided may be carried out or end in an exception. -/
structure Fact (F : Type) where
  traceId : UInt64
  raw : MemoryRecord F
  candidate : DerivedCandidate F
  derivedId : UInt64
  similar : List (UInt64 × F)
  marginalValue : F
  neighbours : List (MemoryRecord F × F)
  carriedOut : Bool

/-- The gate and the reconciler, if there is one, with its language model. -/
structure Judges (F : Type) where
  patterns : Patterns
  gate : WriteGate.Config F
  reconciler : Option (Reconciler.Config F × Option (Text → LLMAnswer))

namespace Fact

variable [FloatOps F] (j : Judges F) (f : Fact F)

def verdict : GateVerdict F :=
  (WriteGate.evaluate j.gate j.patterns f.candidate.content f.similar f.marginalValue).downgraded

/-- The reconciler that is asked: none about a fact that was not stored. -/
def asked : Option (Reconciler.Config F × Option (Text → LLMAnswer)) :=
  if (f.verdict j).decision ≠ .rejected ∧ f.derivedId ≠ 0 then j.reconciler else none

/-- What the language model answers, if it is asked. -/
def answer : Option LLMAnswer :=
  (f.asked j).bind fun r => Reconciler.answer r.1 r.2 f.candidate.content f.neighbours

/-- What is logged of a fact. Nothing is if the language model throws. -/
def events (fl : Json.Library D) : List MemoryEvent :=
  match f.asked j with
  | none => [gateEvent f.derivedId f.traceId f.raw.agentId f.candidate (f.verdict j) none]
  | some (cfg, llm) =>
    match (Reconciler.decide fl cfg llm {} f.candidate.content f.neighbours).2 with
    | none => []
    | some decided =>
      let d := safeguarded f.raw.content f.candidate.content decided
      reconcileEvent f.derivedId f.traceId f.raw.agentId f.candidate f.neighbours.length d ::
        if f.carriedOut then [gateEvent f.derivedId f.traceId f.raw.agentId f.candidate (f.verdict j) (some d)] else []

end Fact

end Facts

/-! ### What can be written -/

section Serialisation

variable {F D : Type}

theorem serialisable_storeEvent {memoryId : UInt64} {q : Request} (h : Utf8.valid q.content = true) :
    Serialisable (storeEvent memoryId q) ↔ Utf8.valid q.agentId = true := by
  refine ⟨Serialisable.agentId, fun hagent => ⟨hagent, valid_truncateUtf8 h 80, ?_⟩⟩
  simp [storeEvent, (memoryTypeToString q.memoryType).property, (scopeToString q.scope).property]

/-- The text of an error has to be well formed. -/
theorem serialisable_embedEvent {memoryId traceId : UInt64} {embedMs : UInt32} {agentId : Text}
    {r : Except Provider.Error Text} (h : ∀ content, r = .ok content → Utf8.valid (truncateUtf8 content 80) = true) :
    Serialisable (embedEvent memoryId traceId embedMs agentId r) ↔
      Utf8.valid agentId = true ∧ ∀ e, r = .error e → Utf8.valid e.message = true := by
  cases r with
  | ok content =>
    have hcontent := h content rfl
    constructor
    · intro hs
      exact ⟨hs.agentId, fun e he => (by cases he)⟩
    · rintro ⟨hagent, -⟩
      exact ⟨hagent, hcontent, by simp [embedEvent]⟩
  | error e =>
    constructor
    · intro hs
      refine ⟨hs.agentId, fun e' he' => ?_⟩
      cases he'
      exact Provider.Error.valid_toString.mp (hs.attrs ("error", e.toString) (List.mem_singleton_self _))
    · rintro ⟨hagent, he⟩
      refine ⟨hagent, rfl, ?_⟩
      simpa [embedEvent] using Provider.Error.valid_toString.mpr (he e rfl)

/-! ### What can be written of a fact -/

theorem valid_of_isDigit {s : Text} (h : s.all Json.isDigit = true) : Utf8.valid s = true := by
  refine Utf8.valid_of_ascii fun b hb => ?_
  have hdigit := List.all_eq_true.mp h b hb
  simp only [Json.isDigit, decide_eq_true_eq, UInt8.le_iff_toNat_le] at hdigit
  rw [UInt8.lt_iff_toNat_lt]
  exact Nat.lt_of_le_of_lt hdigit.2 (by decide)

theorem valid_conflictWithId {reason digits : Text} (h : conflictWithId reason = some digits) :
    Utf8.valid digits = true := by
  obtain ⟨front, t, back, -, ht, -⟩ := List.findSome?_eq_some_iff.mp h
  dsimp only at ht
  split at ht
  · rw [← Option.some.inj ht]
    exact valid_of_isDigit (List.all_takeWhile ..)
  · cases ht

section Rationales

variable {fl : Json.Library D}

theorem valid_readRationale {j : Json D} {r : Text} (h : Reconciler.readRationale j = some r) :
    Utf8.valid r = true := by
  rw [Reconciler.readRationale] at h
  exact valid_member rfl h

theorem rationale_normalised (d : ReconcileDecision) : (Reconciler.normalised d).rationale = d.rationale := by
  unfold Reconciler.normalised
  split
  · rfl
  · split <;> rfl

/-- What the language model says for a reason is well formed: it was read from JSON. -/
theorem valid_rationale_parseResponse (s : Text) : Utf8.valid (Reconciler.parseResponse fl s).rationale = true := by
  unfold Reconciler.parseResponse Reconciler.fill
  split
  · rfl
  · split
    · rfl
    · split
      · rfl
      · next hr =>
        rw [rationale_normalised]
        exact valid_readRationale hr

theorem valid_rationale_checked {strong : List (MemoryRecord F × F)} {d : ReconcileDecision}
    (h : Utf8.valid d.rationale = true) : Utf8.valid (Reconciler.checked strong d).rationale = true := by
  unfold Reconciler.checked
  split
  · dsimp only
    split
    · rw [Utf8.valid_append (Utf8.valid_bytes _)]
      exact h
    · exact h
  · exact h

@[simp] theorem valid_rationale_safeguarded {raw candidate : Text} {d : ReconcileDecision} :
    Utf8.valid (safeguarded raw candidate d).rationale = Utf8.valid d.rationale := by
  unfold safeguarded
  split
  · exact Utf8.valid_append (Utf8.valid_bytes _) _
  · rfl

/-- The reason of a decision is well formed, unless it has the error of a provider. -/
theorem valid_rationale_decide [FloatOps F] {cfg : Reconciler.Config F} {llm : Option (Text → LLMAnswer)}
    {stats : Reconciler.Stats} {candidate : Text} {neighbours : List (MemoryRecord F × F)} {d : ReconcileDecision}
    (h : (Reconciler.decide fl cfg llm stats candidate neighbours).2 = some d) :
    Utf8.valid d.rationale = true ↔
      ∀ m, Reconciler.answer cfg llm candidate neighbours = some (.error m) → Utf8.valid m = true := by
  rw [Reconciler.decide_asked] at h
  cases ha : Reconciler.answer cfg llm candidate neighbours with
  | none =>
    rw [ha] at h
    rw [← Option.some.inj h]
    exact iff_of_true (Utf8.valid_bytes _) (by simp)
  | some a =>
    rw [ha] at h
    cases a with
    | throws => cases h
    | error m =>
      rw [← Option.some.inj h, Utf8.valid_append (Utf8.valid_bytes _)]
      simp
    | response s =>
      rw [← Option.some.inj h]
      exact iff_of_true (valid_rationale_checked (valid_rationale_parseResponse s)) (by simp)

end Rationales

section Candidate

variable {derivedId traceId : UInt64} {agentId : Text} {c : DerivedCandidate F}

theorem serialisable_reconcileEvent {neighbours : ℕ} {d : ReconcileDecision} (h : Utf8.valid c.content = true) :
    Serialisable (reconcileEvent derivedId traceId agentId c neighbours d) ↔
      Utf8.valid agentId = true ∧ Utf8.valid d.rationale = true := by
  constructor
  · intro hs
    exact ⟨hs.agentId, hs.attrs ("rationale", d.rationale) (by simp [reconcileEvent])⟩
  · rintro ⟨hagent, hrationale⟩
    exact ⟨hagent, valid_truncateUtf8 h 80, by simp [reconcileEvent, hrationale]⟩

theorem serialisable_gateEvent {v : GateVerdict F} {reconciled : Option ReconcileDecision}
    (h : Utf8.valid c.content = true) (hreason : Utf8.valid v.reason = true) :
    Serialisable (gateEvent derivedId traceId agentId c v reconciled) ↔
      Utf8.valid agentId = true ∧ ∀ d ∈ reconciled, Utf8.valid d.rationale = true := by
  constructor
  · intro hs
    refine ⟨hs.agentId, fun d hd => hs.attrs ("reconcile_rationale", d.rationale) ?_⟩
    rw [Option.mem_def.mp hd]
    simp [gateEvent]
  · rintro ⟨hagent, hrationale⟩
    refine ⟨hagent, valid_truncateUtf8 h 80, ?_⟩
    simp only [gateEvent, List.forall_mem_append, List.forall_mem_map, List.forall_mem_flatMap, Option.mem_toList]
    refine ⟨⟨⟨fun digits hd => valid_conflictWithId hd, ?_⟩, fun d hd => ?_⟩, ?_⟩
    · simp [(memoryTypeToString c.memoryType).property, hreason]
    · simp [hrationale d hd]
    · simp [(scopeToString c.scope).property]

end Candidate

/-- **What can be written of a fact**: all, if the agent's name is well formed and so is
the error with which a provider answered the reconciler, if one did. -/
theorem Fact.serialisable_events [FloatOps F] (htext : ∀ x : F, Utf8.valid (toText x) = true) (j : Judges F)
    (f : Fact F) (fl : Json.Library D) (h : Utf8.valid f.candidate.content = true) :
    (∀ e ∈ f.events j fl, Serialisable e) ↔ f.answer j = some .throws ∨
      (Utf8.valid f.raw.agentId = true ∧ ∀ m, f.answer j = some (.error m) → Utf8.valid m = true) := by
  have hreason : Utf8.valid (f.verdict j).reason = true := by
    unfold verdict GateVerdict.downgraded
    split <;> exact WriteGate.valid_evaluate htext ..
  unfold events answer
  cases f.asked j with
  | none => simp [serialisable_gateEvent h hreason]
  | some r =>
    obtain ⟨cfg, llm⟩ := r
    dsimp only [Option.bind_some]
    cases hd : (Reconciler.decide fl cfg llm {} f.candidate.content f.neighbours).2 with
    | none =>
      have hthrows : Reconciler.answer cfg llm f.candidate.content f.neighbours = some .throws := by
        rw [Reconciler.decide_asked] at hd
        split at hd <;> simp_all
      simp [hthrows]
    | some d =>
      have hnot : Reconciler.answer cfg llm f.candidate.content f.neighbours ≠ some .throws := by
        intro hthrows
        rw [Reconciler.decide_asked, hthrows] at hd
        cases hd
      rw [or_iff_right hnot, ← valid_rationale_decide hd, List.forall_mem_cons, serialisable_reconcileEvent h,
        valid_rationale_safeguarded]
      split
      · simp [serialisable_gateEvent h hreason]
      · simp

end Serialisation

end Capture
end Amind
