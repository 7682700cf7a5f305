/-
# The circuit breaker of the connection pool

The pool counts the failures since the last success, and opens its circuit when
the count reaches the threshold. `isCircuitOpen` says no once the cooldown has
passed since the circuit opened, so that a probe goes through; there is no
half-open state, only this comparison.

`recordFailure` notes the time only where it finds the circuit closed. A run of
failures has one such failure, the one that takes it to the threshold
(`trippingFailure`), and `isCircuitOpen_iff` says that the answer depends on its
age alone: a probe that fails after the cooldown leaves the circuit as it was.

The idle connections and the slots of the active ones are left out.
-/
import Mathlib.Algebra.Ring.Nat
import Mathlib.Data.Int.Notation
import Mathlib.Data.List.Induction
import Amind.Lib.Run

namespace Amind
namespace Provider

/-- A reading of the steady clock: nanoseconds since it started, in 64 bits with
a sign that is never set. -/
structure TimePoint where
  ns : ℕ
  lt : ns < 2 ^ 63

namespace TimePoint

/-- `duration_cast<milliseconds>(now - t).count()`. -/
def msSince (now t : TimePoint) : ℤ := ((now.ns : ℤ) - t.ns).tdiv 1000000

/-- Less than `ms` milliseconds lie between the two readings. -/
def Within (ms : UInt64) (t now : TimePoint) : Prop := now.ns < t.ns + ms.toNat * 1000000

instance (ms : UInt64) (t now : TimePoint) : Decidable (Within ms t now) :=
  inferInstanceAs (Decidable (_ < _))

/-- The comparison of `isCircuitOpen`, between a reading and a later one. -/
theorem le_msSince_iff (ms : UInt64) (t now : TimePoint) (h : t.ns ≤ now.ns) :
    ms ≤ UInt64.ofInt (now.msSince t) ↔ ¬Within ms t now := by
  have hlt := now.lt
  have hms : now.msSince t = ((now.ns - t.ns) / 1000000 : ℕ) := by
    rw [msSince, ← Int.ofNat_sub h]
    rfl
  have hnat : (UInt64.ofInt (now.msSince t)).toNat = (now.ns - t.ns) / 1000000 := by
    rw [hms]
    simp only [UInt64.ofInt, UInt64.toNat_ofNat']
    omega
  simp only [UInt64.le_iff_toNat_le, hnat, Within]
  omega

end TimePoint

/-- The fields of the pool's configuration that the circuit breaker reads. -/
structure Config where
  circuitBreakerThreshold : UInt64 := 5
  circuitBreakerCooldownMs : UInt64 := 10000

/-- The circuit breaker's part of the pool. -/
structure HttpConnectionPool where
  config : Config
  consecutiveFailures : UInt64 := 0
  circuitOpenedAt : TimePoint := ⟨0, by omega⟩
  circuitOpen : Bool := false

namespace HttpConnectionPool

def recordSuccess (pool : HttpConnectionPool) : HttpConnectionPool :=
  if pool.circuitOpen then { pool with consecutiveFailures := 0, circuitOpen := false }
  else { pool with consecutiveFailures := 0 }

def recordFailure (pool : HttpConnectionPool) (now : TimePoint) : HttpConnectionPool :=
  let failures := pool.consecutiveFailures + 1
  if pool.config.circuitBreakerThreshold ≤ failures ∧ pool.circuitOpen = false then
    { pool with consecutiveFailures := failures, circuitOpen := true, circuitOpenedAt := now }
  else { pool with consecutiveFailures := failures }

def isCircuitOpen (pool : HttpConnectionPool) (now : TimePoint) : Bool :=
  if pool.circuitOpen = false then false
  else if pool.config.circuitBreakerCooldownMs ≤ UInt64.ofInt (now.msSince pool.circuitOpenedAt) then
    -- cooldown expired, allow probe
    false
  else true

@[simp] theorem recordSuccess_config (pool : HttpConnectionPool) :
    pool.recordSuccess.config = pool.config := by
  unfold recordSuccess
  split <;> rfl

@[simp] theorem recordFailure_config (pool : HttpConnectionPool) (now : TimePoint) :
    (pool.recordFailure now).config = pool.config := by
  simp only [recordFailure]
  split <;> rfl

@[simp] theorem recordSuccess_circuitOpen (pool : HttpConnectionPool) :
    pool.recordSuccess.circuitOpen = false := by
  unfold recordSuccess
  split <;> simp_all

@[simp] theorem recordSuccess_consecutiveFailures (pool : HttpConnectionPool) :
    pool.recordSuccess.consecutiveFailures = 0 := by
  unfold recordSuccess
  split <;> rfl

/-- A failure does not touch an open circuit, neither its flag nor its time. -/
theorem recordFailure_of_open {pool : HttpConnectionPool} (now : TimePoint) (h : pool.circuitOpen = true) :
    (pool.recordFailure now).circuitOpen = true ∧
      (pool.recordFailure now).circuitOpenedAt = pool.circuitOpenedAt := by
  simp [recordFailure, h]

theorem recordFailure_trips {pool : HttpConnectionPool} (now : TimePoint) (h : pool.circuitOpen = false)
    (hf : pool.config.circuitBreakerThreshold ≤ pool.consecutiveFailures + 1) :
    (pool.recordFailure now).circuitOpen = true ∧ (pool.recordFailure now).circuitOpenedAt = now := by
  simp [recordFailure, h, hf]

theorem recordFailure_counts {pool : HttpConnectionPool} (now : TimePoint)
    (h : pool.circuitOpen = false)
    (hf : ¬pool.config.circuitBreakerThreshold ≤ pool.consecutiveFailures + 1) :
    (pool.recordFailure now).circuitOpen = false ∧
      (pool.recordFailure now).consecutiveFailures = pool.consecutiveFailures + 1 := by
  simp [recordFailure, h, hf]

end HttpConnectionPool

/-! ### Runs -/

/-- A call on the pool, with the reading of the clock at its time. -/
inductive Call
  | recordSuccess
  | recordFailure (now : TimePoint)
  | isCircuitOpen (now : TimePoint)

namespace Call

/-- The reading of a call. -/
def reading : Call → Option TimePoint
  | recordSuccess => none
  | recordFailure now => some now
  | isCircuitOpen now => some now

/-- The pool after a call. -/
def on (pool : HttpConnectionPool) : Call → HttpConnectionPool
  | recordSuccess => pool.recordSuccess
  | recordFailure now => pool.recordFailure now
  | isCircuitOpen _ => pool

/-- The failures since the last success, with one more call. -/
def extend (run : List TimePoint) : Call → List TimePoint
  | recordSuccess => []
  | recordFailure now => run ++ [now]
  | isCircuitOpen _ => run

end Call

/-- The pool after a list of calls on a new one. -/
def poolAfter (config : Config) (calls : List Call) : HttpConnectionPool :=
  Run.run Call.on { config } calls

/-- The present run of failures: the times of those since the last success, the
oldest first. -/
def streak (calls : List Call) : List TimePoint := Run.run Call.extend [] calls

/-- The clock does not go back from one call to the next. -/
def NonDecreasing (calls : List Call) : Prop :=
  (calls.filterMap Call.reading).Pairwise fun t t' => t.ns ≤ t'.ns

/-- The failure that takes a run to the threshold, or its first where the
threshold is zero. -/
def Config.trippingFailure (config : Config) (run : List TimePoint) : Option TimePoint :=
  run[config.circuitBreakerThreshold.toNat - 1]?

/-- What the pool knows of the present run of failures: before the threshold its
length, and from then on the time of the failure that tripped it. -/
structure Tracks (config : Config) (run : List TimePoint) (pool : HttpConnectionPool) : Prop where
  config_eq : pool.config = config
  closed : config.trippingFailure run = none →
    pool.circuitOpen = false ∧ pool.consecutiveFailures.toNat = run.length
  opened : ∀ t, config.trippingFailure run = some t →
    pool.circuitOpen = true ∧ pool.circuitOpenedAt = t

theorem trippingFailure_snoc_of_some {config : Config} {run : List TimePoint} {t : TimePoint}
    (now : TimePoint) (h : config.trippingFailure run = some t) :
    config.trippingFailure (run ++ [now]) = some t := by
  simp only [Config.trippingFailure] at h ⊢
  obtain ⟨hlt, -⟩ := List.getElem?_eq_some_iff.mp h
  rw [List.getElem?_append_left hlt, h]

/-- A failure keeps what the pool knows, in each of its three cases: an open
circuit, one that trips, and a count below the threshold. -/
theorem Tracks.recordFailure {config : Config} {run : List TimePoint} {pool : HttpConnectionPool}
    (h : Tracks config run pool) (now : TimePoint) :
    Tracks config (run ++ [now]) (pool.recordFailure now) := by
  have hcfg : (pool.recordFailure now).config = config := by simp [h.config_eq]
  cases ht : config.trippingFailure run with
  | some t =>
    obtain ⟨hopen, hat⟩ := h.opened t ht
    obtain ⟨hopen', hat'⟩ := HttpConnectionPool.recordFailure_of_open now hopen
    have hrun := trippingFailure_snoc_of_some now ht
    refine ⟨hcfg, fun hn => ?_, fun t' ht' => ?_⟩
    · simp [hrun] at hn
    · obtain rfl : t = t' := by simpa [hrun] using ht'
      exact ⟨hopen', hat'.trans hat⟩
  | none =>
    obtain ⟨hclosed, hcount⟩ := h.closed ht
    have hlen : run.length ≤ config.circuitBreakerThreshold.toNat - 1 := by
      simpa [Config.trippingFailure] using ht
    have hthr := config.circuitBreakerThreshold.toNat_lt
    have hone : (1 : UInt64).toNat = 1 := rfl
    -- no count wraps before the threshold is reached
    have hnext : (pool.consecutiveFailures + 1).toNat = run.length + 1 := by
      rw [UInt64.toNat_add, hcount, hone]
      omega
    by_cases hf : pool.config.circuitBreakerThreshold ≤ pool.consecutiveFailures + 1
    · obtain ⟨hopen', hat'⟩ := HttpConnectionPool.recordFailure_trips now hclosed hf
      rw [UInt64.le_iff_toNat_le, hnext, h.config_eq] at hf
      have heq : config.circuitBreakerThreshold.toNat - 1 = run.length := by omega
      have hrun : config.trippingFailure (run ++ [now]) = some now := by
        simp [Config.trippingFailure, heq]
      refine ⟨hcfg, fun hn => ?_, fun t' ht' => ?_⟩
      · simp [hrun] at hn
      · obtain rfl : now = t' := by simpa [hrun] using ht'
        exact ⟨hopen', hat'⟩
    · obtain ⟨hclosed', hcount'⟩ := HttpConnectionPool.recordFailure_counts now hclosed hf
      rw [UInt64.le_iff_toNat_le, hnext, h.config_eq] at hf
      have hrun : config.trippingFailure (run ++ [now]) = none := by
        simp only [Config.trippingFailure, List.getElem?_eq_none_iff, List.length_append,
          List.length_singleton]
        omega
      refine ⟨hcfg, fun _ => ⟨hclosed', ?_⟩, fun t' ht' => ?_⟩
      · rw [hcount', hnext]
        simp
      · simp [hrun] at ht'

theorem Tracks.recordSuccess {config : Config} {run : List TimePoint} {pool : HttpConnectionPool}
    (h : Tracks config run pool) : Tracks config [] pool.recordSuccess := by
  refine ⟨by simp [h.config_eq], fun _ => by simp, fun t ht => ?_⟩
  simp [Config.trippingFailure] at ht

/-- What one call preserves. -/
theorem Tracks.on {config : Config} {run : List TimePoint} {pool : HttpConnectionPool}
    (h : Tracks config run pool) : ∀ c : Call, Tracks config (c.extend run) (Call.on pool c)
  | .recordSuccess => h.recordSuccess
  | .recordFailure now => h.recordFailure now
  | .isCircuitOpen _ => h

/-- What every run of calls preserves. -/
theorem poolAfter_tracks (config : Config) (calls : List Call) :
    Tracks config (streak calls) (poolAfter config calls) := by
  induction calls using List.reverseRecOn with
  | nil => exact ⟨rfl, fun _ => by simp [poolAfter, streak], by simp [Config.trippingFailure, streak]⟩
  | append_singleton calls c ih =>
    rw [poolAfter, streak, Run.run_concat, Run.run_concat]
    exact ih.on c

theorem mem_readings_of_mem_streak {t : TimePoint} (calls : List Call) (h : t ∈ streak calls) :
    t ∈ calls.filterMap Call.reading := by
  induction calls using List.reverseRecOn with
  | nil => simp [streak] at h
  | append_singleton calls c ih =>
    rw [streak, Run.run_concat] at h
    rw [List.filterMap_append, List.mem_append]
    cases c with
    | recordSuccess => simp [Call.extend] at h
    | recordFailure now =>
      simp only [Call.extend, List.mem_append, List.mem_singleton] at h
      obtain h | rfl := h
      · exact .inl (ih h)
      · exact .inr (by simp [Call.reading])
    | isCircuitOpen now => exact .inl (ih h)

/-- The circuit counts as open at a reading exactly if the failure that tripped
it is less than the cooldown old, however young the failures after it are. -/
theorem isCircuitOpen_iff (config : Config) (calls : List Call) (now : TimePoint)
    (hnow : NonDecreasing (calls ++ [.isCircuitOpen now])) :
    (poolAfter config calls).isCircuitOpen now = true ↔
      ∃ t, config.trippingFailure (streak calls) = some t ∧ t.Within config.circuitBreakerCooldownMs now := by
  have inv := poolAfter_tracks config calls
  cases ht : config.trippingFailure (streak calls) with
  | none => simp [HttpConnectionPool.isCircuitOpen, (inv.closed ht).1]
  | some t =>
    obtain ⟨hopen, hat⟩ := inv.opened t ht
    have hle : t.ns ≤ now.ns := by
      have hmem := mem_readings_of_mem_streak calls (List.mem_of_getElem? ht)
      rw [NonDecreasing, List.filterMap_append, List.pairwise_append] at hnow
      exact hnow.2.2 t hmem now (by simp [Call.reading])
    simp [HttpConnectionPool.isCircuitOpen, hopen, hat, inv.config_eq, TimePoint.le_msSince_iff _ _ _ hle]

/-! ### Protection -/

/-- What a call records. -/
inductive Outcome
  | success
  | failure (now : TimePoint)

def Call.outcome : Call → Option Outcome
  | recordSuccess => some .success
  | recordFailure now => some (.failure now)
  | isCircuitOpen _ => none

def Outcome.failedAt : Outcome → Option TimePoint
  | success => none
  | failure now => some now

/-- The recorded outcomes, in order. -/
def outcomes (calls : List Call) : List Outcome := calls.filterMap Call.outcome

/-- Protection is due at a reading: the last outcomes, as many as the threshold
or more, are all failures, and the most recent failure is less than the cooldown
old. -/
def Due (config : Config) (calls : List Call) (now : TimePoint) : Prop :=
  (∃ last, last <:+ outcomes calls ∧ config.circuitBreakerThreshold.toNat ≤ last.length ∧
    ∀ o ∈ last, ∃ t, o = .failure t) ∧
  ∃ t, ((outcomes calls).filterMap Outcome.failedAt).getLast? = some t ∧
    t.Within config.circuitBreakerCooldownMs now

/-- Every `isCircuitOpen` of the run where protection is due says yes. -/
def KeepsProtecting (config : Config) (calls : List Call) : Prop :=
  ∀ before now after, calls = before ++ .isCircuitOpen now :: after → Due config before now →
    (poolAfter config before).isCircuitOpen now = true

/-- Wherever the run asks and protection is due, the failure that took the
present run of failures to the threshold is itself less than the cooldown old. -/
def RecentlyTripped (config : Config) (calls : List Call) : Prop :=
  ∀ before now after, calls = before ++ .isCircuitOpen now :: after → Due config before now →
    ∃ t, config.trippingFailure (streak before) = some t ∧ t.Within config.circuitBreakerCooldownMs now

/-- **A run keeps protecting exactly if no question falls more than a cooldown
after the failure that tripped the circuit, while later failures are younger.** -/
theorem keepsProtecting_iff (config : Config) (calls : List Call) (hc : NonDecreasing calls) :
    KeepsProtecting config calls ↔ RecentlyTripped config calls := by
  have ask : ∀ before now after, calls = before ++ .isCircuitOpen now :: after →
      NonDecreasing (before ++ [.isCircuitOpen now]) := by
    intro before now after h
    rw [NonDecreasing, h, List.append_cons, List.filterMap_append, List.pairwise_append] at hc
    exact hc.1
  constructor
  · intro h before now after hcalls hdue
    exact (isCircuitOpen_iff config before now (ask before now after hcalls)).mp (h before now after hcalls hdue)
  · intro h before now after hcalls hdue
    exact (isCircuitOpen_iff config before now (ask before now after hcalls)).mpr (h before now after hcalls hdue)

/-- Five failures at once trip a pool with the default configuration. -/
def tripped : List Call := List.replicate 5 (.recordFailure ⟨1000000000, by omega⟩)

/-- The probe ten seconds and a millisecond later fails too. -/
def failedProbe : List Call := tripped ++ [.recordFailure ⟨11001000000, by omega⟩]

theorem due_failedProbe : Due {} failedProbe ⟨11002000000, by omega⟩ := by
  refine ⟨⟨outcomes failedProbe, List.suffix_rfl, by decide, ?_⟩,
    ⟨⟨11001000000, by omega⟩, by rfl, by decide⟩⟩
  simp [outcomes, failedProbe, tripped, Call.outcome]

theorem not_keepsProtecting :
    ¬∀ (config : Config) (calls : List Call), NonDecreasing calls → KeepsProtecting config calls := by
  intro h
  have hopen := h {} (failedProbe ++ [.isCircuitOpen ⟨11002000000, by omega⟩])
    (by simp [NonDecreasing, failedProbe, tripped, Call.reading]) failedProbe _ [] rfl due_failedProbe
  exact absurd hopen (by decide)

theorem keepsProtecting_tripped :
    NonDecreasing (tripped ++ [.isCircuitOpen ⟨2000000000, by omega⟩]) ∧
      (KeepsProtecting {} (tripped ++ [.isCircuitOpen ⟨2000000000, by omega⟩]) ↔
        RecentlyTripped {} (tripped ++ [.isCircuitOpen ⟨2000000000, by omega⟩])) :=
  have h : NonDecreasing (tripped ++ [.isCircuitOpen ⟨2000000000, by omega⟩]) := by
    simp [NonDecreasing, tripped, Call.reading]
  ⟨h, keepsProtecting_iff {} _ h⟩

end Provider
end Amind
