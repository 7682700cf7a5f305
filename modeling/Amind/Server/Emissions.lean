/-
# What is logged must be text

Captures, forgetting cycles, the filter of stale memories and the resurrection of an
event log what they do, in the midst of it, and a text that is not well formed ends
them there. Contents are shortened for an event where no character goes on. One place
cuts them at a byte: resurrecting, after the memory was stored
(`resurrect_half`). Texts that are no contents are logged as they are, the names of
agents, queries, and what a provider sent with an error.

`serialisable_iff` says when all of it can be written.

Key definitions: `Operation.events`, `Operation.Clean`.
-/
import Amind.Capture.Events
import Amind.Retrieval.Staleness
import Amind.Server.CycleEvents
import Amind.Server.Isolation

namespace Amind
namespace Server

open Amind.Core Amind.Memory Amind.Capture Amind.Forget Amind.Observability Amind.Retrieval WireFormat

/-! ### Resurrecting -/

section Resurrecting

variable {F D : Type}

/-- The content and the strategy, as the body has them or as they are without. -/
def resurrectBody (fl : Json.Library D) (body content : Text) : Option (Text × Text) :=
  if body = [] then some (content, Utf8.bytes "coexist")
  else (fl.parse body).bind fun j => do
    let content ← member j "content" getText content
    let strategy ← member j "strategy" getText (Utf8.bytes "coexist")
    pure (content, strategy)

/-- What is captured for a request, with the id of the source event and the strategy, if
the request is not refused. -/
def resurrection (fl : Json.Library D) (l : EventLog) (eventIdStr body : Text) :
    Option (UInt64 × Capture.Request × Text) := do
  let eventId ← Auth.stoull eventIdStr
  let source ← (l.query { limit := l.recent.length }).find? fun e => e.eventId = eventId
  let (content, strategy) ← resurrectBody fl body source.summary
  let q ← resurrected source.toMemoryEvent (some content)
  pure (eventId, q, strategy)

/-- What is logged in the end. The content is cut at a byte. -/
def resurrectEvent (newId eventId : UInt64) (q : Capture.Request) (strategy : Text) : MemoryEvent where
  memoryId := newId
  traceId := newId
  agentId := q.agentId
  kind := .resurrect
  status := .ok
  summary := q.content.take 80
  attrs := [("source_event_id", Utf8.bytes (toString eventId.toNat)), ("strategy", strategy)]

/-- What resurrecting logs: what the capture logs, and its own. Nothing is stored of
some contents, and nothing is logged if storing fails. -/
def resurrectEvents [Floats F] (fl : Json.Library D) (p : Patterns) (half : F) (s : MemoryStore F) (l : EventLog)
    (eventIdStr body : Text) (g : Given) : List MemoryEvent :=
  match resurrection fl l eventIdStr body with
  | none => []
  | some (eventId, q, strategy) =>
    match (Capture.capture p half s q g).2 with
    | none => [resurrectEvent 0 eventId q strategy]
    | some st => st.id.toList.flatMap fun id => [storeEvent id q, resurrectEvent id eventId q strategy]

/-- The content ends within 80 bytes, or no character goes on behind them. -/
def CutsWell (content : Text) : Prop := ∀ b, content[80]? = some b → Utf8.cont b = false

instance (content : Text) : Decidable (CutsWell content) :=
  decidable_of_iff (content[80]?.all fun b => !Utf8.cont b) (by
    unfold CutsWell
    cases content[80]? <;> simp)

variable {fl : Json.Library D}

theorem serialisable_resurrectEvent {newId eventId : UInt64} {q : Capture.Request} {strategy : Text}
    (h : Utf8.valid q.content = true) (hstrategy : Utf8.valid strategy = true) :
    Serialisable (resurrectEvent newId eventId q strategy) ↔ Utf8.valid q.agentId = true ∧ CutsWell q.content := by
  rw [CutsWell, ← Utf8.valid_take_iff h]
  constructor
  · intro hs
    exact ⟨hs.agentId, hs.summary⟩
  · rintro ⟨hagent, hcut⟩
    exact ⟨hagent, hcut, by simp [resurrectEvent, hstrategy]⟩

/-- What a body says is well formed, and so is what is taken without. -/
theorem valid_resurrectBody {body content : Text} {r : Text × Text} (h : Utf8.valid content = true)
    (hr : resurrectBody fl body content = some r) : Utf8.valid r.1 = true ∧ Utf8.valid r.2 = true := by
  unfold resurrectBody at hr
  split at hr
  · rw [← Option.some.inj hr]
    exact ⟨h, Utf8.valid_bytes _⟩
  · obtain ⟨j, -, hr⟩ := Option.bind_eq_some_iff.mp hr
    obtain ⟨content', hcontent, hr⟩ := Option.bind_eq_some_iff.mp hr
    obtain ⟨strategy, hstrategy, hr⟩ := Option.bind_eq_some_iff.mp hr
    rw [← Option.some.inj hr]
    exact ⟨valid_member h hcontent, valid_member (Utf8.valid_bytes _) hstrategy⟩

theorem valid_resurrection {l : EventLog} {eventIdStr body : Text} {eventId : UInt64} {q : Capture.Request}
    {strategy : Text} (hl : ∀ e ∈ l.recent, Utf8.valid e.summary = true)
    (h : resurrection fl l eventIdStr body = some (eventId, q, strategy)) :
    Utf8.valid q.content = true ∧ Utf8.valid strategy = true := by
  obtain ⟨id, -, h⟩ := Option.bind_eq_some_iff.mp h
  obtain ⟨source, hsource, h⟩ := Option.bind_eq_some_iff.mp h
  obtain ⟨⟨content, strategy'⟩, hbody, h⟩ := Option.bind_eq_some_iff.mp h
  obtain ⟨q', hq, h⟩ := Option.bind_eq_some_iff.mp h
  obtain ⟨-, h⟩ := Prod.mk.inj (Option.some.inj h)
  obtain ⟨rfl, rfl⟩ := Prod.mk.inj h
  have hmem : source ∈ l.recent := by
    have hquery : source ∈ EventLog.collect { limit := l.recent.length } [] l.recent.reverse :=
      List.mem_of_find?_eq_some hsource
    rw [EventLog.collect_nil] at hquery
    exact List.mem_reverse.mp (List.mem_filter.mp (List.mem_of_mem_take hquery)).1
  have hvalid := valid_resurrectBody (hl source hmem) hbody
  unfold resurrected at hq
  split at hq
  · rw [← Option.some.inj hq]
    exact hvalid
  · cases hq

/-- Something is stored, or tried to, exactly of the contents that are taken. -/
theorem isSome_capture [Zero F] (p : Patterns) (half : F) (s : MemoryStore F) (q : Capture.Request) (g : Given) :
    (Capture.capture p half s q g).2.isSome = p.takes q.content := by
  unfold Capture.capture Patterns.takes
  cases isTransientContent p q.content with
  | true => rfl
  | false => cases isForgetRequest p q.content <;> rfl

/-- **What can be written of a resurrection.** -/
theorem serialisable_resurrectEvents [Floats F] {p : Patterns} {half : F} {s : MemoryStore F} {l : EventLog}
    {eventIdStr body : Text} {g : Given} (hl : ∀ e ∈ l.recent, Utf8.valid e.summary = true) :
    (∀ e ∈ resurrectEvents fl p half s l eventIdStr body g, Serialisable e) ↔
      ∀ eventId q strategy, resurrection fl l eventIdStr body = some (eventId, q, strategy) →
        (p.takes q.content = true → (s.idGen.nextId g.clock).id.isSome = true) →
        Utf8.valid q.agentId = true ∧ CutsWell q.content := by
  unfold resurrectEvents
  cases hr : resurrection fl l eventIdStr body with
  | none => simp
  | some r =>
    obtain ⟨eventId, q, strategy⟩ := r
    obtain ⟨hcontent, hstrategy⟩ := valid_resurrection hl hr
    have hid : (Capture.capture p half s q g).2.bind Stored.id =
        if p.takes q.content then (s.idGen.nextId g.clock).id else none := id_capture
    have htakes := isSome_capture p half s q g
    simp only [Option.some.injEq, Prod.mk.injEq, and_imp]
    cases hc : (Capture.capture p half s q g).2 with
    | none =>
      rw [hc, Option.isSome_none] at htakes
      simp [serialisable_resurrectEvent hcontent hstrategy, ← htakes]
    | some st =>
      rw [hc, Option.isSome_some] at htakes
      have htakes := htakes.symm
      rw [hc, Option.bind_some, if_pos htakes] at hid
      dsimp only
      rw [hid]
      cases (s.idGen.nextId g.clock).id with
      | none => simp [htakes]
      | some id => simp [serialisable_storeEvent hcontent, serialisable_resurrectEvent hcontent hstrategy]

end Resurrecting

/-! ### The filter of stale memories -/

/-- The ids of a text, by pattern. The patterns have digits, capital letters and a hyphen
only. -/
structure IdPatterns where
  extractIds : Text → List (String × List Text)
  ascii : ∀ s, ∀ e ∈ extractIds s, ∀ id ∈ e.2, ∀ b ∈ id, b < 0x80

section Filtering

open AggregateStalenessFilter

variable {F : Type} {p : IdPatterns} {cfg : AggregateStalenessFilter.Config}

/-- The ids of a candidate are well formed. -/
theorem valid_idsByPattern {c : ScoredCandidate F} {name : String} {ids : List Text} {id : Text}
    (h : (name, ids) ∈ (featOf p.extractIds c).idsByPattern) (hid : id ∈ ids) : Utf8.valid id = true := by
  unfold featOf at h
  split at h
  · cases h
  · next r _ =>
    obtain ⟨ids', hmem, hid'⟩ := has_byPattern.mp ⟨ids, h, hid⟩
    exact Utf8.valid_of_ascii (p.ascii r.content _ hmem id hid')

theorem valid_newIds {r : MemoryRecord F} {s : String × List Text} {c : ScoredCandidate F} {id : Text}
    (h : id ∈ newIds r s (c, featOf p.extractIds c)) : Utf8.valid id = true := by
  unfold newIds at h
  split at h
  · cases h
  · split at h
    · cases h
    · obtain ⟨hmem, -⟩ := List.mem_filter.mp h
      cases hset : (featOf p.extractIds c).idsByPattern.lookup s.1 with
      | none => simp [hset] at hmem
      | some ids =>
        rw [hset] at hmem
        obtain ⟨front, back, hsplit, -⟩ := List.lookup_eq_some_iff.mp hset
        exact valid_idsByPattern (hsplit ▸ List.mem_append_right _ List.mem_cons_self) hmem

theorem valid_joinPipe : ∀ {items : List Text}, (∀ t ∈ items, Utf8.valid t = true) → Utf8.valid (joinPipe items) = true
  | [], _ => rfl
  | [t], h => by simpa [joinPipe] using h
  | t :: t' :: items, h => by
    obtain ⟨ht, hitems⟩ := List.forall_mem_cons.mp h
    have hjoin : joinPipe (t :: t' :: items) = t ++ (Utf8.bytes "|" ++ joinPipe (t' :: items)) := rfl
    rw [hjoin, Utf8.valid_append ht, Utf8.valid_append (Utf8.valid_bytes _)]
    exact valid_joinPipe hitems

theorem mem_sorted {ids : List Text} {id : Text} : id ∈ sorted ids ↔ id ∈ ids := by
  rw [sorted, List.mem_mergeSort, List.mem_dedup]

variable [FloatOps F] {query namespaceHint : Text}

theorem serialisable_event (htext : ∀ x : F, Utf8.valid (toText x) = true) {c : ScoredCandidate F} {r : MemoryRecord F}
    {found : List (List Text)} (h : Kept r.content) (hfound : ∀ ids ∈ found, ∀ id ∈ ids, Utf8.valid id = true) :
    Serialisable (event query namespaceHint c r (featOf p.extractIds c) found) ↔
      Utf8.valid query = true ∧ Utf8.valid namespaceHint = true := by
  constructor
  · intro hs
    exact ⟨hs.attrs ("query", query) (by simp [event]), hs.agentId⟩
  · rintro ⟨hquery, hagent⟩
    refine ⟨hagent, h.valid_truncateUtf8 (by decide), ?_⟩
    have hold : Utf8.valid (joinPipe (sorted ((featOf p.extractIds c).idsByPattern.flatMap (·.2)))) = true := by
      refine valid_joinPipe fun id hid => ?_
      obtain ⟨s, hs, hmem⟩ := List.mem_flatMap.mp (mem_sorted.mp hid)
      exact valid_idsByPattern hs hmem
    have hnew : Utf8.valid (joinPipe (sorted found.flatten)) = true := by
      refine valid_joinPipe fun id hid => ?_
      obtain ⟨ids, hids, hmem⟩ := List.mem_flatten.mp (mem_sorted.mp hid)
      exact hfound ids hids id hmem
    simp [event, hquery, hold, hnew, htext]

/-- One event is logged for each candidate that is dropped, and all of them have the query
and the name. -/
theorem serialisable_scan (htext : ∀ x : F, Utf8.valid (toText x) = true) {feats : List (ScoredCandidate F × CandFeat)}
    (hfeats : ∀ e ∈ feats, e.2 = featOf p.extractIds e.1) :
    ∀ {todo : List ((ScoredCandidate F × CandFeat) × ℕ)}, (∀ e ∈ todo, e.1 ∈ feats) →
      (∀ e ∈ todo, ∀ r, e.1.1.record = some r → Kept r.content) →
      ((∀ e ∈ (scan cfg query namespaceHint feats todo).2.2, Serialisable e) ↔
        (0 < (scan cfg query namespaceHint feats todo).2.1 → Utf8.valid query = true ∧ Utf8.valid namespaceHint = true))
  | [], _, _ => by simp [scan]
  | ((c, f), i) :: todo, hmem, hkept => by
    obtain ⟨hf, hmem⟩ := List.forall_mem_cons.mp hmem
    obtain ⟨hc, hkept⟩ := List.forall_mem_cons.mp hkept
    have ih := serialisable_scan htext hfeats hmem hkept
    obtain rfl : f = featOf p.extractIds c := hfeats _ hf
    rw [scan]
    cases hr : c.record with
    | none => exact ih
    | some r =>
      dsimp only
      split
      · have hfound : ∀ ids ∈ witnesses feats i r (featOf p.extractIds c), ∀ id ∈ ids, Utf8.valid id = true := by
          intro ids hids id hid
          obtain ⟨s, -, hids⟩ := List.mem_flatMap.mp hids
          obtain ⟨⟨⟨o, fo⟩, j⟩, ho, hids⟩ := List.mem_filterMap.mp hids
          obtain rfl : fo = featOf p.extractIds o := hfeats _ (List.fst_mem_of_mem_zipIdx ho)
          split at hids
          · cases hids
          · split at hids
            · cases hids
            · rw [← Option.some.inj hids] at hid
              exact valid_newIds hid
        rw [List.forall_mem_cons, serialisable_event htext (hc r hr) hfound, ih]
        simp only [Nat.zero_lt_succ, forall_const]
        exact ⟨fun h => h.1, fun h => ⟨h, fun _ => h⟩⟩
      · exact ih

/-- **What can be written of the filter.** -/
theorem serialisable_apply (htext : ∀ x : F, Utf8.valid (toText x) = true) {cs : List (ScoredCandidate F)}
    (h : ∀ c ∈ cs, ∀ r, c.record = some r → Kept r.content) :
    (∀ e ∈ (apply p.extractIds cfg query namespaceHint cs).events, Serialisable e) ↔
      ((∃ c ∈ cs, stale p.extractIds cfg cs c = true) → Utf8.valid query = true ∧ Utf8.valid namespaceHint = true) := by
  obtain ⟨-, hdropped⟩ := apply_eq p.extractIds cfg query namespaceHint cs
  have hcount : (∃ c ∈ cs, stale p.extractIds cfg cs c = true) ↔
      0 < (apply p.extractIds cfg query namespaceHint cs).dropped := by
    rw [hdropped, List.countP_pos_iff]
  rw [hcount]
  unfold apply
  split
  · simp
  · split
    · simp
    · have hscan : let feats := cs.map fun c => (c, featOf p.extractIds c)
          (∀ e ∈ (scan cfg query namespaceHint feats feats.zipIdx).2.2, Serialisable e) ↔
            (0 < (scan cfg query namespaceHint feats feats.zipIdx).2.1 →
              Utf8.valid query = true ∧ Utf8.valid namespaceHint = true) := by
        refine serialisable_scan (p := p) htext (fun e he => ?_) (fun e he => List.fst_mem_of_mem_zipIdx he)
          fun e he r hr => ?_
        · obtain ⟨c, -, rfl⟩ := List.mem_map.mp he
          rfl
        · obtain ⟨c, hc, he'⟩ := List.mem_map.mp (List.fst_mem_of_mem_zipIdx he)
          rw [← he'] at hr
          exact h c hc r hr
      dsimp only
      split
      · exact hscan
      · exact hscan

end Filtering

/-! ### Everything that logs -/

/-- What logs events, with what it is given: the two stages of the pipeline, a cycle, the
filter and the resurrection of an event. -/
inductive Operation (F : Type) [FloatOps F]
  | capture (p : Patterns) (half : F) (s : MemoryStore F) (q : Capture.Request) (g : Given)
  | embed (memoryId traceId : UInt64) (embedMs : UInt32) (agentId : Text) (r : Except Provider.Error Text)
  | fact (j : Judges F) (f : Fact F)
  | forgetCycle (g : Gc F) (c : Sweep)
  | filterStale (p : IdPatterns) (cfg : AggregateStalenessFilter.Config) (query namespaceHint : Text)
    (cs : List (AggregateStalenessFilter.ScoredCandidate F))
  | resurrect (p : Patterns) (half : F) (s : MemoryStore F) (eventIdStr body : Text) (g : Given)

namespace Operation

variable {F D : Type} [FloatOps F] (fl : Json.Library D) (l : EventLog)

/-- What is appended to the log, in its order. -/
def events : Operation F → List MemoryEvent
  | .capture p half s q g => ((Capture.capture p half s q g).2.bind Stored.id).toList.map fun id => storeEvent id q
  | .embed memoryId traceId embedMs agentId r => [embedEvent memoryId traceId embedMs agentId r]
  | .fact j f => f.events j fl
  | .forgetCycle g c => g.toLog c
  | .filterStale p cfg query namespaceHint cs =>
    (AggregateStalenessFilter.apply p.extractIds cfg query namespaceHint cs).events
  | .resurrect p half s eventIdStr body g => resurrectEvents fl p half s l eventIdStr body g

/-- Each event, with the id and the time it gets if it has none. -/
def stamped (stamps : ℕ → UInt64 × UInt64) (es : List MemoryEvent) : List (MemoryEvent × UInt64 × UInt64) :=
  es.zipIdx.map fun e => (e.1, stamps e.2)

/-- No append throws, with the file of the log open. -/
def returns (ringCapacity : ℕ) (stamps : ℕ → UInt64 × UInt64) : Operation F → Bool
  | .forgetCycle g c => (runForgetCycleOnce { g with appends := fun ev => appends fl true { ev with } } c).2.isSome
  | op => (EventLog.appendAll fl ringCapacity true (stamped stamps (op.events fl l)) l).2

/-- The contents are well formed, and those that are read from a store are what comes back
of such. -/
def Contents : Operation F → Prop
  | .capture _ _ _ q _ => Utf8.valid q.content = true
  | .embed _ _ _ _ r => ∀ content, r = .ok content → Kept content
  | .fact _ f => Utf8.valid f.candidate.content = true
  | .forgetCycle g _ => ∀ a id r, (g.engine.memory a).load id = some r → Kept r.content
  | .filterStale _ _ _ _ cs => ∀ c ∈ cs, ∀ r, c.record = some r → Kept r.content
  | .resurrect _ _ _ _ _ _ => ∀ e ∈ l.recent, Utf8.valid e.summary = true

/-- The stores that are swept keep of a removed record what is written of it. -/
def Wired : Operation F → Prop
  | .forgetCycle g _ => ∀ a, CutsTexts (g.engine.memory a).config.wire
  | _ => True

/-- What goes into an event and is no content is well formed: the name of the agent, the
query, the error of a provider. What is resurrected is cut well, too. -/
def Clean : Operation F → Prop
  | .capture p _ s q g =>
    p.takes q.content = true → (s.idGen.nextId g.clock).id.isSome = true → Utf8.valid q.agentId = true
  | .embed _ _ _ agentId r => Utf8.valid agentId = true ∧ ∀ e, r = .error e → Utf8.valid e.message = true
  | .fact j f => f.answer j = some .throws ∨
    (Utf8.valid f.raw.agentId = true ∧ ∀ m, f.answer j = some (.error m) → Utf8.valid m = true)
  | .forgetCycle g c => g.WellNamed c [] (g.evaluations c.now)
  | .filterStale p cfg query namespaceHint cs =>
    (∃ c ∈ cs, AggregateStalenessFilter.stale p.extractIds cfg cs c = true) →
      Utf8.valid query = true ∧ Utf8.valid namespaceHint = true
  | .resurrect p _ s eventIdStr body g =>
    ∀ eventId q strategy, resurrection fl l eventIdStr body = some (eventId, q, strategy) →
      (p.takes q.content = true → (s.idGen.nextId g.clock).id.isSome = true) →
      Utf8.valid q.agentId = true ∧ CutsWell q.content

variable {fl l}

theorem forall_mem_stamped {stamps : ℕ → UInt64 × UInt64} {es : List MemoryEvent} {P : MemoryEvent → Prop} :
    (∀ e ∈ stamped stamps es, P e.1) ↔ ∀ e ∈ es, P e := by
  have hes : (stamped stamps es).map Prod.fst = es := by
    rw [stamped, List.map_map]
    exact List.zipIdx_map_fst ..
  rw [← List.forall_mem_map (f := Prod.fst) (P := P), hes]

/-- Nothing throws if all events can be written. -/
theorem returns_iff {ringCapacity : ℕ} {stamps : ℕ → UInt64 × UInt64} {op : Operation F} :
    op.returns fl l ringCapacity stamps = true ↔ ∀ e ∈ op.events fl l, Serialisable e := by
  have hlist : ∀ es : List MemoryEvent,
      (EventLog.appendAll fl ringCapacity true (stamped stamps es) l).2 = true ↔ ∀ e ∈ es, Serialisable e := by
    intro es
    rw [appendAll_iff, forall_mem_stamped]
    simp
  cases op with
  | forgetCycle g c =>
    rw [returns, isSome_runForgetCycleOnce]
    simp only [appends_iff, forall_const]
    rfl
  | capture | embed | fact | filterStale | resurrect => exact hlist _

/-- **What can be written.** With contents that are well formed, all events can be written,
and so nothing is ended by the log, exactly if the rest of what goes into them is well
formed, and a resurrected content is not cut within a character. -/
theorem serialisable_iff (htext : ∀ x : F, Utf8.valid (toText x) = true) (op : Operation F) (hw : op.Wired)
    (h : op.Contents l) (ringCapacity : ℕ) (stamps : ℕ → UInt64 × UInt64) :
    ((∀ e ∈ op.events fl l, Serialisable e) ∧ op.returns fl l ringCapacity stamps = true) ↔ op.Clean fl l := by
  rw [returns_iff, and_self]
  cases op with
  | capture p half s q g =>
    have hid : (Capture.capture p half s q g).2.bind Stored.id =
        if p.takes q.content then (s.idGen.nextId g.clock).id else none := id_capture
    rw [events, hid, Clean]
    cases p.takes q.content with
    | false => simp
    | true =>
      rw [if_pos rfl]
      cases (s.idGen.nextId g.clock).id with
      | none => simp
      | some id => simp [serialisable_storeEvent h]
  | embed memoryId traceId embedMs agentId r =>
    rw [events, List.forall_mem_singleton]
    exact serialisable_embedEvent fun content hr => (h content hr).valid_truncateUtf8 (by decide)
  | fact j f => exact f.serialisable_events htext j fl h
  | forgetCycle g c => exact serialisable_toLog g c htext hw h
  | filterStale p cfg query namespaceHint cs => exact serialisable_apply htext h
  | resurrect p half s eventIdStr body g => exact serialisable_resurrectEvents h

end Operation

/-! ### A long fact and a short one -/

/-- A fact of 27 characters, each of three bytes. -/
def longFact : Text := (List.replicate 27 (Utf8.bytes "字")).flatten

/-- The log of a gate that deferred a fact. -/
def deferred (fact : Text) : EventLog :=
  { recent := [{ eventId := 5, memoryId := 7, kind := .gate, status := .deferred, summary := truncateUtf8 fact 80 }] }

def emptyStore : MemoryStore ℚ := .new ⟨1, 3, 0.6, 10, 0.7, 100, .whole⟩

def given : Capture.Given where
  clock := [1700000000000]
  now := 1700000000

/-- Resurrecting that event, with no body. -/
def resurrectDeferred : Operation ℚ := .resurrect .silent (1 / 2) emptyStore (Utf8.bytes "5") [] given

def counting (n : ℕ) : UInt64 × UInt64 := (UInt64.ofNat n + 6, 1700000000000)

theorem valid_deferred {fact : Text} (h : Utf8.valid fact = true) : resurrectDeferred.Contents (deferred fact) := by
  intro e he
  rw [List.mem_singleton.mp he]
  exact valid_truncateUtf8 h 80

theorem valid_toText (x : ℚ) : Utf8.valid (toText x) = true := by
  have htext : toText x = sixDecimals x := rfl
  rw [htext, sixDecimals, List.append_assoc, Utf8.valid_append (Utf8.valid_bytes _),
    Utf8.valid_append (Utf8.valid_bytes _)]
  exact Utf8.valid_bytes _

theorem serialisable_shortFact :
    (∀ e ∈ resurrectDeferred.events Numbers.whole.text (deferred (Utf8.bytes "She moved to Lyon.")),
      Serialisable e) ∧
      resurrectDeferred.returns Numbers.whole.text (deferred (Utf8.bytes "She moved to Lyon.")) 2000 counting =
        true := by
  refine (Operation.serialisable_iff valid_toText resurrectDeferred trivial (valid_deferred (Utf8.valid_bytes _)) 2000
    counting).mpr fun eventId q strategy hr _ => ?_
  have hall : (resurrection Numbers.whole.text (deferred (Utf8.bytes "She moved to Lyon.")) (Utf8.bytes "5") []).all
      (fun r => Utf8.valid r.2.1.agentId && decide (CutsWell r.2.1.content)) = true := by decide +kernel
  rw [hr] at hall
  simpa using hall

/-- **Half a resurrection.** The summary of the long fact has 26 characters and an ellipsis,
81 bytes. It is stored, and that is logged; then it is cut within the ellipsis, and the
resurrection ends. -/
theorem resurrect_half :
    ¬ (∀ (l : EventLog) (op : Operation ℚ), op.Contents l → (∀ e ∈ op.events Numbers.whole.text l, Serialisable e) ∧
      op.returns Numbers.whole.text l 2000 counting = true) ∧
    (EventLog.appendAll Numbers.whole.text 2000 true
      (Operation.stamped counting (resurrectDeferred.events Numbers.whole.text (deferred longFact)))
      (deferred longFact)).1.recent.map (·.kind) = [.gate, .store] ∧
    (resurrection Numbers.whole.text (deferred longFact) (Utf8.bytes "5") []).any (fun r =>
      let c := Capture.capture .silent (1 / 2) emptyStore r.2.1 given
      ((c.2.bind Stored.id).bind c.1.load).any fun stored => stored.content = truncateUtf8 longFact 80) = true := by
  refine ⟨fun h => ?_, by decide +kernel, by decide +kernel⟩
  have hvalid : Utf8.valid longFact = true := by decide +kernel
  have hreturns := (h (deferred longFact) resurrectDeferred (valid_deferred hvalid)).2
  have hends : resurrectDeferred.returns Numbers.whole.text (deferred longFact) 2000 counting = false := by
    decide +kernel
  rw [hends] at hreturns
  cases hreturns

end Server
end Amind
