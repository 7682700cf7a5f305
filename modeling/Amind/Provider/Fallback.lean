/-
# The fallback provider

A list of levels, the same model behind different keys or hosts, and a circuit
for each. A call tries in order the levels whose circuit is not open, and
returns the first success. Where every level failed or was passed over, it looks
at the circuits again and tries the first open one as a last resort. `generate`
and `generateJson` share the circuits and differ in what they ask the provider.

The clock and the providers are outside (`Surroundings`): the `k`-th reading of
the one, in nanoseconds, and the `k`-th answer of the others can be anything. No
result below needs the readings in order. The state keeps a history that the
code does not have, of every answer and every trip, newest first.

A circuit remembers the second in which it tripped, and zero says that it is
closed: a trip in the first second after the clock started does not show.

`Recorded.justified` says what an open circuit has behind it, and `call_cases`
what a call comes to. The labels of the levels are only logged, and left out.
-/
import Mathlib.Data.List.FinRange
import Mathlib.Logic.Function.Basic
import Amind.Core.MemoryRecord
import Amind.Provider.CircuitBreaker

namespace Amind
namespace Provider

/-- The codes of `Error`. -/
inductive ErrorCode
  | ok | invalidArgument | notFound | alreadyExists | corruptedData | crcMismatch | ioError
  | walError | lsmError | vectorError | graphError | providerError | providerTimeout
  | providerUnavailable | queueFull | queueEmpty | conflictDetected | staleMemory
  | sessionNotFound | sessionClosed | configError | internalError
  deriving DecidableEq, Repr

structure Error where
  code : ErrorCode := .ok
  message : Core.Text := []
  deriving DecidableEq, Repr

/-- The two operations of a provider. -/
inductive Operation
  | generate
  | generateJson

/-- What a provider is asked. -/
structure Request where
  operation : Operation
  prompt : Core.Text
  systemPrompt : Core.Text := []

/-- The steady clock by the number of the reading, and the providers of `n`
levels by the number of the question. -/
structure Surroundings (n : ℕ) where
  clock : ℕ → TimePoint
  answer : ℕ → Fin n → Request → Except Error Core.Text

/-- `duration_cast<seconds>(now.time_since_epoch()).count()`. -/
def TimePoint.epochS (t : TimePoint) : ℤ := (t.ns / 1000000000 : ℕ)

structure CircuitState where
  consecutiveFailures : UInt64 := 0
  trippedAtEpochS : ℤ := 0  -- 0 = not tripped

/-- What happened to a level. -/
inductive Event (n : ℕ)
  | answered (i : Fin n) (answer : Except Error Core.Text)
  | tripped (i : Fin n) (now : TimePoint)

/-- The provider of `n` levels, how often it read the clock and asked a level,
and what came of it. -/
structure FallbackLLMProvider (n : ℕ) where
  circuitThreshold : UInt64 := 3
  cooldown : ℤ := 30  -- seconds
  circuits : Fin n → CircuitState := fun _ => {}
  reads : ℕ := 0
  asked : ℕ := 0
  history : List (Event n) := []

/-- Where a pass over the levels got to. -/
inductive Pass (n : ℕ)
  | succeeded (text : Core.Text) (p : FallbackLLMProvider n)
  | exhausted (lastErr : Error) (p : FallbackLLMProvider n)

/-- What is returned after the last pass. -/
def Pass.result {n : ℕ} : Pass n → Except Error Core.Text × FallbackLLMProvider n
  | succeeded text p => (.ok text, p)
  | exhausted lastErr p => (.error lastErr, p)

namespace FallbackLLMProvider

variable {n : ℕ} (w : Surroundings n)

def isOpen (p : FallbackLLMProvider n) (idx : Fin n) : Bool :=
  let tripped := (p.circuits idx).trippedAtEpochS
  if tripped = 0 then false
  else
    let now := (w.clock p.reads).epochS
    decide (now - tripped < p.cooldown)

/-- The provider after `isOpen`, which reads the clock for a tripped circuit
only. -/
def look (p : FallbackLLMProvider n) (idx : Fin n) : FallbackLLMProvider n :=
  if (p.circuits idx).trippedAtEpochS = 0 then p else { p with reads := p.reads + 1 }

def recordSuccess (p : FallbackLLMProvider n) (idx : Fin n) : FallbackLLMProvider n :=
  { p with circuits := Function.update p.circuits idx { consecutiveFailures := 0, trippedAtEpochS := 0 } }

def recordFailure (p : FallbackLLMProvider n) (idx : Fin n) : FallbackLLMProvider n :=
  let failures := (p.circuits idx).consecutiveFailures + 1
  if p.circuitThreshold ≤ failures then
    let now := w.clock p.reads
    { p with
      circuits := Function.update p.circuits idx
        { consecutiveFailures := failures, trippedAtEpochS := now.epochS }
      reads := p.reads + 1
      history := .tripped idx now :: p.history }
  else
    { p with
      circuits := Function.update p.circuits idx
        { p.circuits idx with consecutiveFailures := failures } }

/-- The answer of a level's provider. -/
def ask (r : Request) (p : FallbackLLMProvider n) (idx : Fin n) : Except Error Core.Text :=
  w.answer p.asked idx r

/-- The provider after an answer. -/
def hear (p : FallbackLLMProvider n) (idx : Fin n) (result : Except Error Core.Text) :
    FallbackLLMProvider n :=
  { p with asked := p.asked + 1, history := .answered idx result :: p.history }

/-- The first loop: the levels that are not open, in order. -/
def firstPass (r : Request) : List (Fin n) → FallbackLLMProvider n → Error → Pass n
  | [], p, lastErr => .exhausted lastErr p
  | i :: is, p, lastErr =>
    if p.isOpen w i then firstPass r is (p.look i) lastErr
    else
      match p.ask w r i with
      | .ok text => .succeeded text (((p.look i).hear i (.ok text)).recordSuccess i)
      | .error e => firstPass r is (((p.look i).hear i (.error e)).recordFailure w i) e

/-- The second loop: the first level that is open. -/
def lastResort (r : Request) : List (Fin n) → FallbackLLMProvider n → Error → Pass n
  | [], p, lastErr => .exhausted lastErr p
  | i :: is, p, lastErr =>
    if !p.isOpen w i then lastResort r is (p.look i) lastErr
    else
      match p.ask w r i with
      | .ok text => .succeeded text (((p.look i).hear i (.ok text)).recordSuccess i)
      | .error e => .exhausted e ((p.look i).hear i (.error e))

/-- The body that `generate` and `generateJson` share. -/
def call (r : Request) (p : FallbackLLMProvider n) : Except Error Core.Text × FallbackLLMProvider n :=
  match p.firstPass w r (List.finRange n) {} with
  | .succeeded text p => (.ok text, p)
  | .exhausted lastErr p => (p.lastResort w r (List.finRange n) lastErr).result

def generate (p : FallbackLLMProvider n) (prompt systemPrompt : Core.Text) :
    Except Error Core.Text × FallbackLLMProvider n :=
  p.call w ⟨.generate, prompt, systemPrompt⟩

def generateJson (p : FallbackLLMProvider n) (prompt systemPrompt : Core.Text) :
    Except Error Core.Text × FallbackLLMProvider n :=
  p.call w ⟨.generateJson, prompt, systemPrompt⟩

/-- Serve a request by the operation it asks for. -/
def serve (p : FallbackLLMProvider n) (r : Request) : Except Error Core.Text × FallbackLLMProvider n :=
  match r.operation with
  | .generate => p.generate w r.prompt r.systemPrompt
  | .generateJson => p.generateJson w r.prompt r.systemPrompt

theorem serve_eq_call (p : FallbackLLMProvider n) (r : Request) : p.serve w r = p.call w r := by
  obtain ⟨_ | _, _, _⟩ := r <;> rfl

/-! ### Turns -/

/-- A level's turn in the first pass. -/
def turn (r : Request) (p : FallbackLLMProvider n) (i : Fin n) : FallbackLLMProvider n :=
  if p.isOpen w i then p.look i
  else
    match p.ask w r i with
    | .ok text => ((p.look i).hear i (.ok text)).recordSuccess i
    | .error e => ((p.look i).hear i (.error e)).recordFailure w i

/-- The first pass goes on after this turn: the level was open, or it failed. -/
def Declined (r : Request) (p : FallbackLLMProvider n) (i : Fin n) : Prop :=
  p.isOpen w i = true ∨ ∃ e, p.ask w r i = .error e

/-- The first pass ends with this turn. -/
def Succeeds (r : Request) (text : Core.Text) (p : FallbackLLMProvider n) (i : Fin n) : Prop :=
  p.isOpen w i = false ∧ p.ask w r i = .ok text

theorem not_declined_iff {r : Request} {p : FallbackLLMProvider n} {i : Fin n} :
    ¬p.Declined w r i ↔ ∃ text, p.Succeeds w r text i := by
  unfold Declined Succeeds
  cases p.isOpen w i <;> cases p.ask w r i <;> simp

/-- The first pass goes through levels that decline one by one. -/
theorem firstPass_append (r : Request) : ∀ (before after : List (Fin n)) (p : FallbackLLMProvider n)
    (lastErr : Error), Run.Along (turn w r) (Declined w r) p before →
    ∃ lastErr', p.firstPass w r (before ++ after) lastErr =
      (Run.run (turn w r) p before).firstPass w r after lastErr'
  | [], _, _, lastErr, _ => ⟨lastErr, rfl⟩
  | i :: before, after, p, lastErr, h => by
    obtain ⟨hi, hrest⟩ := h
    rw [List.cons_append, Run.run_cons, firstPass]
    cases ho : p.isOpen w i with
    | true =>
      obtain ⟨lastErr', ih⟩ := firstPass_append r before after (p.turn w r i) lastErr hrest
      refine ⟨lastErr', ih.symm ▸ ?_⟩
      simp [turn, ho]
    | false =>
      obtain ⟨e, he⟩ : ∃ e, p.ask w r i = .error e := by simpa [Declined, ho] using hi
      obtain ⟨lastErr', ih⟩ := firstPass_append r before after (p.turn w r i) e hrest
      refine ⟨lastErr', ih.symm ▸ ?_⟩
      simp [turn, ho, he]

/-- All levels decline. -/
theorem firstPass_of_declined {r : Request} {is : List (Fin n)} {p : FallbackLLMProvider n}
    (lastErr : Error) (h : Run.Along (turn w r) (Declined w r) p is) :
    ∃ lastErr', p.firstPass w r is lastErr = .exhausted lastErr' (Run.run (turn w r) p is) := by
  obtain ⟨lastErr', h⟩ := firstPass_append w r is [] p lastErr h
  exact ⟨lastErr', by simpa [firstPass] using h⟩

/-- A level succeeds after levels that declined. -/
theorem firstPass_of_succeeds {r : Request} {before : List (Fin n)} {i : Fin n} {p : FallbackLLMProvider n}
    {text : Core.Text} (after : List (Fin n)) (lastErr : Error)
    (h : Run.Along (turn w r) (Declined w r) p before)
    (hi : (Run.run (turn w r) p before).Succeeds w r text i) :
    p.firstPass w r (before ++ i :: after) lastErr =
      .succeeded text (Run.run (turn w r) p (before ++ [i])) := by
  obtain ⟨lastErr', h⟩ := firstPass_append w r before (i :: after) p lastErr h
  rw [h, firstPass, Run.run_concat]
  simp [turn, hi.1, hi.2]

/-- A level is not open when the last resort looks at it. -/
def Closed (p : FallbackLLMProvider n) (i : Fin n) : Prop := p.isOpen w i = false

/-- The last resort goes past levels that are not open. -/
theorem lastResort_append (r : Request) : ∀ (before after : List (Fin n)) (p : FallbackLLMProvider n)
    (lastErr : Error), Run.Along look (Closed w) p before →
    p.lastResort w r (before ++ after) lastErr = (Run.run look p before).lastResort w r after lastErr
  | [], _, _, _, _ => rfl
  | i :: before, after, p, lastErr, h => by
    obtain ⟨hi, hrest⟩ := h
    have ih := lastResort_append r before after (p.look i) lastErr hrest
    unfold Closed at hi
    simpa [lastResort, hi] using ih

/-! ### What a call comes to -/

/-- The provider when a level's turn comes, after those before it. -/
def atTurn (r : Request) (p : FallbackLLMProvider n) (before : List (Fin n)) : FallbackLLMProvider n :=
  Run.run (turn w r) p before

/-- The provider when the last resort looks at a level, after those before it. -/
def atLastResort (r : Request) (p : FallbackLLMProvider n) (before : List (Fin n)) : FallbackLLMProvider n :=
  Run.run look (p.atTurn w r (List.finRange n)) before

/-- Every level declines at its turn. -/
def AllDecline (r : Request) (p : FallbackLLMProvider n) : Prop :=
  Run.Along (turn w r) (Declined w r) p (List.finRange n)

/-- `text` is the first success met on trying in order the levels that are not
open at their turn. -/
def FirstSuccess (r : Request) (p : FallbackLLMProvider n) (text : Core.Text) : Prop :=
  ∃ before i after, List.finRange n = before ++ i :: after ∧
    Run.Along (turn w r) (Declined w r) p before ∧ (p.atTurn w r before).Succeeds w r text i

/-- Level `i` is the first that the last resort finds open, after `before`. -/
def FirstOpen (r : Request) (p : FallbackLLMProvider n) (before : List (Fin n)) (i : Fin n) : Prop :=
  Run.Along look (Closed w) (p.atTurn w r (List.finRange n)) before ∧
    (p.atLastResort w r before).isOpen w i = true

theorem call_of_firstSuccess {r : Request} {p : FallbackLLMProvider n} {text : Core.Text}
    (h : p.FirstSuccess w r text) : (p.call w r).1 = .ok text := by
  obtain ⟨before, i, after, heq, hbefore, hi⟩ := h
  rw [call, heq, firstPass_of_succeeds w after {} hbefore hi]

/-- With every level declining, the last resort decides. -/
theorem call_of_allDecline {r : Request} {p : FallbackLLMProvider n} (h : p.AllDecline w r)
    {before after : List (Fin n)} (heq : List.finRange n = before ++ after)
    (hbefore : Run.Along look (Closed w) (p.atTurn w r (List.finRange n)) before) :
    ∃ lastErr, p.call w r = ((p.atLastResort w r before).lastResort w r after lastErr).result := by
  obtain ⟨lastErr, hfirst⟩ := firstPass_of_declined w {} h
  refine ⟨lastErr, ?_⟩
  have hlast := lastResort_append w r before after (p.atTurn w r (List.finRange n)) lastErr hbefore
  rw [← heq] at hlast
  rw [call, hfirst]
  exact congrArg Pass.result hlast

theorem call_of_firstOpen {r : Request} {p : FallbackLLMProvider n} (h : p.AllDecline w r)
    {before after : List (Fin n)} {i : Fin n} (heq : List.finRange n = before ++ i :: after)
    (hi : p.FirstOpen w r before i) :
    (p.call w r).1 = (p.atLastResort w r before).ask w r i ∧
      ∀ e, (p.atLastResort w r before).ask w r i = .error e →
        (p.call w r).2 = ((p.atLastResort w r before).look i).hear i (.error e) := by
  obtain ⟨lastErr, hcall⟩ := call_of_allDecline w h heq hi.1
  rw [hcall, lastResort, hi.2]
  cases (p.atLastResort w r before).ask w r i <;> simp [Pass.result]

theorem call_of_noneOpen {r : Request} {p : FallbackLLMProvider n} (h : p.AllDecline w r)
    (hnone : Run.Along look (Closed w) (p.atTurn w r (List.finRange n)) (List.finRange n)) :
    ∃ lastErr, p.call w r = (.error lastErr, p.atLastResort w r (List.finRange n)) := by
  obtain ⟨lastErr, hcall⟩ := call_of_allDecline w h (List.append_nil _).symm hnone
  exact ⟨lastErr, by simpa [lastResort, Pass.result] using hcall⟩

/-- The first pass succeeds, or the last resort tries a level, or there is none
to try. -/
theorem call_cases (r : Request) (p : FallbackLLMProvider n) :
    (∃ text, p.FirstSuccess w r text) ∨
      p.AllDecline w r ∧
        ((∃ before i after, List.finRange n = before ++ i :: after ∧ p.FirstOpen w r before i) ∨
          Run.Along look (Closed w) (p.atTurn w r (List.finRange n)) (List.finRange n)) := by
  obtain hall | ⟨before, i, after, heq, hbefore, hi⟩ := Run.along_or_first (turn w r) (Declined w r) p (List.finRange n)
  · refine .inr ⟨hall, ?_⟩
    obtain hnone | ⟨before, i, after, heq, hbefore, hi⟩ :=
      Run.along_or_first look (Closed w) (p.atTurn w r (List.finRange n)) (List.finRange n)
    · exact .inr hnone
    · refine .inl ⟨before, i, after, heq, hbefore, ?_⟩
      simpa [Closed, atLastResort] using hi
  · obtain ⟨text, hi⟩ := (not_declined_iff w).mp hi
    exact .inl ⟨text, before, i, after, heq, hbefore, hi⟩

/-! ### The history -/

/-- The failures of a level since its last success. -/
def failuresSince (i : Fin n) : List (Event n) → ℕ
  | [] => 0
  | .tripped _ _ :: es => failuresSince i es
  | .answered j answer :: es =>
    if j = i then
      match answer with
      | .ok _ => 0
      | .error _ => failuresSince i es + 1
    else failuresSince i es

/-- When a level last tripped. -/
def lastTrip (i : Fin n) : List (Event n) → Option TimePoint
  | [] => none
  | .tripped j now :: es => if j = i then some now else lastTrip i es
  | .answered _ _ :: es => lastTrip i es

/-- A level was tried in the given state and failed, by the history of a later
state. -/
def TriedAndFailed (final p : FallbackLLMProvider n) (i : Fin n) : Prop :=
  ∃ e, .answered i (.error e) :: p.history <:+ final.history

@[simp] theorem look_history (p : FallbackLLMProvider n) (i : Fin n) : (p.look i).history = p.history := by
  unfold look
  split <;> rfl

@[simp] theorem look_circuits (p : FallbackLLMProvider n) (i : Fin n) : (p.look i).circuits = p.circuits := by
  unfold look
  split <;> rfl

@[simp] theorem look_circuitThreshold (p : FallbackLLMProvider n) (i : Fin n) :
    (p.look i).circuitThreshold = p.circuitThreshold := by
  unfold look
  split <;> rfl

@[simp] theorem hear_history (p : FallbackLLMProvider n) (i : Fin n) (answer : Except Error Core.Text) :
    (p.hear i answer).history = .answered i answer :: p.history := rfl

theorem history_suffix_recordFailure (p : FallbackLLMProvider n) (i : Fin n) :
    p.history <:+ (p.recordFailure w i).history := by
  simp only [recordFailure]
  split
  · exact List.suffix_cons _ _
  · exact List.suffix_rfl

/-- A turn adds to the history, and where the level fails, its answer first. -/
theorem history_suffix_turn (r : Request) (p : FallbackLLMProvider n) (i : Fin n) :
    p.history <:+ (p.turn w r i).history ∧
      (p.isOpen w i = false → ∀ e, p.ask w r i = .error e →
        .answered i (.error e) :: p.history <:+ (p.turn w r i).history) := by
  unfold turn
  split
  · simp_all
  · split
    · simp_all [recordSuccess, hear]
    · rename_i e he
      have h := history_suffix_recordFailure w ((p.look i).hear i (.error e)) i
      simp only [hear_history, look_history] at h
      refine ⟨(List.suffix_cons _ _).trans h, fun _ e' he' => ?_⟩
      obtain rfl : e = e' := by simpa [he] using he'
      exact h

theorem history_suffix_run (r : Request) : ∀ (is : List (Fin n)) (p : FallbackLLMProvider n),
    p.history <:+ (Run.run (turn w r) p is).history
  | [], _ => List.suffix_rfl
  | i :: is, p => (history_suffix_turn w r p i).1.trans (history_suffix_run r is (p.turn w r i))

theorem history_run_look : ∀ (is : List (Fin n)) (p : FallbackLLMProvider n),
    (Run.run look p is).history = p.history
  | [], _ => rfl
  | i :: is, p => by simp [history_run_look is]

/-- Where every level declines, those not open at their turn were tried and failed. -/
theorem triedAndFailed_of_declined {r : Request} {final : FallbackLLMProvider n} :
    ∀ {is : List (Fin n)} {p : FallbackLLMProvider n}, Run.Along (turn w r) (Declined w r) p is →
      (Run.run (turn w r) p is).history <:+ final.history →
      Run.Along (turn w r) (fun q i => q.isOpen w i = false → TriedAndFailed final q i) p is
  | [], _, _, _ => trivial
  | i :: is, p, h, hfinal => by
    refine ⟨fun hopen => ?_, triedAndFailed_of_declined h.2 hfinal⟩
    obtain ⟨e, he⟩ : ∃ e, p.ask w r i = .error e := by simpa [Declined, hopen] using h.1
    have hturn := (history_suffix_turn w r p i).2 hopen e he
    exact ⟨e, hturn.trans ((history_suffix_run w r is _).trans hfinal)⟩

/-- What a call returns, by its two passes. -/
theorem call_eq_ok_iff (r : Request) (p : FallbackLLMProvider n) (text : Core.Text) :
    (p.call w r).1 = .ok text ↔
      p.FirstSuccess w r text ∨
        p.AllDecline w r ∧ ∃ before i after, List.finRange n = before ++ i :: after ∧
          p.FirstOpen w r before i ∧ (p.atLastResort w r before).ask w r i = .ok text := by
  constructor
  · intro h
    obtain ⟨text', hfirst⟩ | ⟨hall, ⟨before, i, after, heq, hi⟩ | hnone⟩ := call_cases w r p
    · obtain rfl : text' = text := by simpa [call_of_firstSuccess w hfirst] using h
      exact .inl hfirst
    · rw [(call_of_firstOpen w hall heq hi).1] at h
      exact .inr ⟨hall, before, i, after, heq, hi, h⟩
    · obtain ⟨lastErr, hcall⟩ := call_of_noneOpen w hall hnone
      simp [hcall] at h
  · rintro (hfirst | ⟨hall, before, i, after, heq, hi, hask⟩)
    · exact call_of_firstSuccess w hfirst
    · rw [(call_of_firstOpen w hall heq hi).1, hask]

/-- What an error says. -/
theorem triedAndFailed_of_call {r : Request} {p : FallbackLLMProvider n} {e : Error}
    (h : (p.call w r).1 = .error e) :
    Run.Along (turn w r) (fun q i => q.isOpen w i = false → TriedAndFailed (p.call w r).2 q i) p
        (List.finRange n) ∧
      ∀ before i after, List.finRange n = before ++ i :: after → p.FirstOpen w r before i →
        TriedAndFailed (p.call w r).2 (p.atLastResort w r before) i := by
  have hall : p.AllDecline w r := by
    obtain ⟨text, hfirst⟩ | ⟨hall, -⟩ := call_cases w r p
    · simp [call_of_firstSuccess w hfirst] at h
    · exact hall
  have hopen : ∀ before i after, List.finRange n = before ++ i :: after → p.FirstOpen w r before i →
      .answered i (.error e) :: (p.atLastResort w r before).history <:+ (p.call w r).2.history := by
    intro before i after heq hi
    obtain ⟨hask, hfinal⟩ := call_of_firstOpen w hall heq hi
    simp [hfinal e (hask.symm.trans h)]
  refine ⟨triedAndFailed_of_declined w hall ?_, fun before i after heq hi => ⟨e, hopen before i after heq hi⟩⟩
  have hlook : ∀ before, (Run.run (turn w r) p (List.finRange n)).history = (p.atLastResort w r before).history :=
    fun before => (history_run_look before _).symm
  obtain ⟨text, hfirst⟩ | ⟨-, ⟨before, i, after, heq, hi⟩ | hnone⟩ := call_cases w r p
  · simp [call_of_firstSuccess w hfirst] at h
  · rw [hlook before]
    exact (List.suffix_cons _ _).trans (hopen before i after heq hi)
  · obtain ⟨lastErr, hcall⟩ := call_of_noneOpen w hall hnone
    rw [hlook (List.finRange n), hcall]

/-! ### What an open circuit has behind it -/

/-- What the circuits remember of the history. A count can be smaller than the
failures, for the last resort does not count, and 64 bits wrap. -/
structure Recorded (p : FallbackLLMProvider n) : Prop where
  counted : ∀ i, (p.circuits i).consecutiveFailures.toNat ≤ failuresSince i p.history
  tripped : ∀ i, (p.circuits i).trippedAtEpochS ≠ 0 →
    p.circuitThreshold.toNat ≤ failuresSince i p.history ∧
      ∃ t, lastTrip i p.history = some t ∧ (p.circuits i).trippedAtEpochS = t.epochS

/-- At the next reading of the clock a level has failed as often as the threshold
since its last success, and its last trip is less than the cooldown ago. -/
def Justified (p : FallbackLLMProvider n) (i : Fin n) : Prop :=
  p.circuitThreshold.toNat ≤ failuresSince i p.history ∧
    ∃ t, lastTrip i p.history = some t ∧ ((w.clock p.reads).ns : ℤ) < t.ns + p.cooldown * 1000000000

/-- Whole seconds compare like the times they are of. -/
theorem Recorded.justified {p : FallbackLLMProvider n} (h : p.Recorded) {i : Fin n}
    (hopen : p.isOpen w i = true) : p.Justified w i := by
  simp only [isOpen] at hopen
  split at hopen
  · cases hopen
  · rename_i hne
    obtain ⟨hfail, t, ht, heq⟩ := h.tripped i hne
    refine ⟨hfail, t, ht, ?_⟩
    simp only [decide_eq_true_eq, heq, TimePoint.epochS] at hopen
    omega

theorem Recorded.look {p : FallbackLLMProvider n} (h : p.Recorded) (i : Fin n) : (p.look i).Recorded :=
  ⟨by simpa using h.counted, by simpa using h.tripped⟩

theorem failuresSince_hear (p : FallbackLLMProvider n) (i j : Fin n) (e : Error) :
    failuresSince j (p.hear i (.error e)).history =
      failuresSince j p.history + if i = j then 1 else 0 := by
  by_cases h : i = j <;> simp [failuresSince, h]

/-- A failure that is heard and not counted. -/
theorem Recorded.hear_error {p : FallbackLLMProvider n} (h : p.Recorded) (i : Fin n) (e : Error) :
    (p.hear i (.error e)).Recorded := by
  constructor
  · intro j
    have := h.counted j
    rw [failuresSince_hear]
    simp only [hear]
    omega
  · intro j hj
    obtain ⟨hfail, t, ht, heq⟩ := h.tripped j hj
    refine ⟨?_, t, by simpa [lastTrip] using ht, heq⟩
    rw [failuresSince_hear]
    simp only [hear]
    omega

/-- A success closes the level's circuit and starts its count again. -/
theorem Recorded.succeeded {p : FallbackLLMProvider n} (h : p.Recorded) (i : Fin n) (text : Core.Text) :
    ((p.hear i (.ok text)).recordSuccess i).Recorded := by
  constructor
  · intro j
    by_cases hj : i = j
    · simp [recordSuccess, hj]
    · simpa [recordSuccess, hear, failuresSince, hj, Ne.symm hj] using h.counted j
  · intro j hne
    by_cases hj : i = j
    · simp [recordSuccess, hj] at hne
    · simp only [recordSuccess, hear, ne_eq, not_false_eq_true, Function.update_of_ne, Ne.symm hj] at hne ⊢
      simpa [failuresSince, lastTrip, hj] using h.tripped j hne

theorem toNat_succ_le (c : UInt64) : (c + 1).toNat ≤ c.toNat + 1 := by
  rw [UInt64.toNat_add]
  exact Nat.mod_le _ _

/-- Counting a failure that the count has not seen, and tripping with it. -/
theorem Recorded.recordFailure {p : FallbackLLMProvider n} (h : p.Recorded) {i : Fin n}
    (hlt : (p.circuits i).consecutiveFailures.toNat < failuresSince i p.history) :
    (p.recordFailure w i).Recorded := by
  have hsucc := toNat_succ_le (p.circuits i).consecutiveFailures
  have hcounted : ∀ j, ((p.recordFailure w i).circuits j).consecutiveFailures.toNat ≤ failuresSince j p.history := by
    intro j
    have hj := h.counted j
    simp only [FallbackLLMProvider.recordFailure]
    by_cases hij : j = i
    · subst hij
      split <;> simp only [Function.update_self] <;> omega
    · split <;> simpa only [ne_eq, hij, not_false_eq_true, Function.update_of_ne] using hj
  constructor
  · intro j
    have hj := hcounted j
    simp only [FallbackLLMProvider.recordFailure] at hj ⊢
    split
    · simpa [failuresSince, *] using hj
    · simpa [*] using hj
  · intro j hne
    simp only [FallbackLLMProvider.recordFailure] at hne ⊢
    split at hne
    · rename_i htrip
      rw [if_pos htrip]
      rw [UInt64.le_iff_toNat_le] at htrip
      by_cases hij : j = i
      · subst hij
        refine ⟨?_, w.clock p.reads, by simp [lastTrip], by simp⟩
        simp only [failuresSince]
        omega
      · simp only [ne_eq, hij, not_false_eq_true, Function.update_of_ne] at hne ⊢
        simpa [failuresSince, lastTrip, Ne.symm hij] using h.tripped j hne
    · rename_i htrip
      rw [if_neg htrip]
      by_cases hij : j = i
      · subst hij
        simpa using h.tripped j (by simpa using hne)
      · simp only [ne_eq, hij, not_false_eq_true, Function.update_of_ne] at hne ⊢
        exact h.tripped j hne

/-- A failure that is heard and counted. -/
theorem Recorded.failed {p : FallbackLLMProvider n} (h : p.Recorded) (i : Fin n) (e : Error) :
    ((p.hear i (.error e)).recordFailure w i).Recorded := by
  apply (h.hear_error i e).recordFailure
  have hi := h.counted i
  rw [failuresSince_hear, if_pos rfl]
  simp only [hear]
  omega

theorem Recorded.turn {p : FallbackLLMProvider n} (h : p.Recorded) (r : Request) (i : Fin n) :
    (p.turn w r i).Recorded := by
  unfold FallbackLLMProvider.turn
  split
  · exact h.look i
  · split
    · exact (h.look i).succeeded i _
    · exact (h.look i).failed w i _

theorem recorded_run {α : Type} {step : FallbackLLMProvider n → α → FallbackLLMProvider n}
    (hstep : ∀ q a, q.Recorded → (step q a).Recorded) : ∀ (as : List α) {p : FallbackLLMProvider n},
    p.Recorded → (Run.run step p as).Recorded
  | [], _, h => h
  | a :: as, _, h => recorded_run hstep as (hstep _ a h)

theorem Recorded.atTurn {p : FallbackLLMProvider n} (h : p.Recorded) (r : Request) (before : List (Fin n)) :
    (p.atTurn w r before).Recorded :=
  recorded_run (fun _ i hq => hq.turn w r i) before h

theorem Recorded.atLastResort {p : FallbackLLMProvider n} (h : p.Recorded) (r : Request)
    (before : List (Fin n)) : (p.atLastResort w r before).Recorded :=
  recorded_run (fun _ i hq => hq.look i) before (h.atTurn w r _)

theorem Recorded.firstPass (r : Request) : ∀ (is : List (Fin n)) {p : FallbackLLMProvider n} (lastErr : Error),
    p.Recorded → (p.firstPass w r is lastErr).result.2.Recorded
  | [], _, _, h => h
  | i :: is, p, lastErr, h => by
    rw [FallbackLLMProvider.firstPass]
    split
    · exact Recorded.firstPass r is lastErr (h.look i)
    · split
      · exact (h.look i).succeeded i _
      · exact Recorded.firstPass r is _ ((h.look i).failed w i _)

theorem Recorded.lastResort (r : Request) : ∀ (is : List (Fin n)) {p : FallbackLLMProvider n} (lastErr : Error),
    p.Recorded → (p.lastResort w r is lastErr).result.2.Recorded
  | [], _, _, h => h
  | i :: is, p, lastErr, h => by
    rw [FallbackLLMProvider.lastResort]
    split
    · exact Recorded.lastResort r is lastErr (h.look i)
    · split
      · exact (h.look i).succeeded i _
      · exact (h.look i).hear_error i _

/-- What one call preserves. -/
theorem Recorded.serve {p : FallbackLLMProvider n} (h : p.Recorded) (r : Request) : (p.serve w r).2.Recorded := by
  have hfirst := Recorded.firstPass w r (List.finRange n) {} h
  rw [serve_eq_call, call]
  split <;> simp_all only [Pass.result]
  exact Recorded.lastResort w r _ _ hfirst

/-- The provider after the requests `requests`, in order, on a new one. -/
def served (circuitThreshold : UInt64) (cooldown : ℤ) (requests : List Request) : FallbackLLMProvider n :=
  Run.run (fun p r => (p.serve w r).2) { circuitThreshold, cooldown } requests

/-- What every run of calls preserves. -/
theorem recorded_served (circuitThreshold : UInt64) (cooldown : ℤ) (requests : List Request) :
    (served w circuitThreshold cooldown requests).Recorded :=
  recorded_run (fun _ r h => h.serve w r) requests ⟨fun _ => by simp [failuresSince], fun _ h => absurd rfl h⟩

/-- **After every run of calls: a circuit that a call finds open is justified; a
call returns the first success on trying in order the levels not open at their
turn, or else the last resort's; and an error means that all those levels were
tried and failed, and the first open one after them too, if there is one.** -/
theorem serve_spec (circuitThreshold : UInt64) (cooldown : ℤ) (requests : List Request) (r : Request) :
    let p := served w circuitThreshold cooldown requests
    (∀ before i, ((p.atTurn w r before).isOpen w i = true → (p.atTurn w r before).Justified w i) ∧
      ((p.atLastResort w r before).isOpen w i = true → (p.atLastResort w r before).Justified w i)) ∧
    (∀ text, (p.serve w r).1 = .ok text ↔
      p.FirstSuccess w r text ∨
        p.AllDecline w r ∧ ∃ before i after, List.finRange n = before ++ i :: after ∧
          p.FirstOpen w r before i ∧ (p.atLastResort w r before).ask w r i = .ok text) ∧
    ∀ e, (p.serve w r).1 = .error e →
      Run.Along (turn w r) (fun q i => q.isOpen w i = false → TriedAndFailed (p.serve w r).2 q i) p
          (List.finRange n) ∧
        ∀ before i after, List.finRange n = before ++ i :: after → p.FirstOpen w r before i →
          TriedAndFailed (p.serve w r).2 (p.atLastResort w r before) i := by
  intro p
  have hp : p.Recorded := recorded_served w circuitThreshold cooldown requests
  rw [serve_eq_call]
  exact ⟨fun before i => ⟨(hp.atTurn w r before).justified w, (hp.atLastResort w r before).justified w⟩,
    call_eq_ok_iff w r p, fun e => triedAndFailed_of_call w⟩

end FallbackLLMProvider

end Provider
end Amind
