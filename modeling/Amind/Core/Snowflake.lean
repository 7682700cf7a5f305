/-
# Snowflake ids

An id has the milliseconds since the custom epoch in its upper 42 bits, then
10 bits of worker id and 12 bits of sequence number. `nextId` reads the clock
as often as it needs to: once if the clock moved on, again and again while it
waits for a clock that stepped back or for the millisecond after one whose
sequence numbers are used up. A call is given the readings it will see; one
that is still waiting after the last of them has not returned.

The sign bit of a reading is not kept apart: `elapsed` is shifted as a 64-bit
word.
-/
import Mathlib.Data.Int.ModEq
import Mathlib.Data.List.Basic

namespace Amind
namespace Core

def CUSTOM_EPOCH_MS : ℤ := 1735689600000
def WORKER_ID_BITS : ℕ := 10
def SEQUENCE_BITS : ℕ := 12
def MAX_WORKER_ID : ℕ := 2 ^ WORKER_ID_BITS - 1
def MAX_SEQUENCE : ℕ := 2 ^ SEQUENCE_BITS - 1
def kMaxClockWaitMs : ℤ := 5000

/-- A generator. Its worker id and sequence number fit their bits. -/
structure SnowflakeGenerator where
  workerId : ℕ
  lastTimestampMs : ℤ
  sequence : ℕ
  worker_le : workerId ≤ MAX_WORKER_ID
  sequence_le : sequence ≤ MAX_SEQUENCE

/-- Where a wait for the clock got to: past the last timestamp with the reading
`t`, given up, or not finished with the readings there are. -/
inductive Wait
  | passed (t : ℤ) (rest : List ℤ)
  | thrown
  | waiting

/-- What a call of `nextId` comes to. -/
inductive NextId
  | returned (id : UInt64) (g : SnowflakeGenerator)
  | thrown
  | waiting

namespace SnowflakeGenerator

/-- A generator with no id drawn. The constructor refuses worker ids out of
range. -/
def make (workerId : ℕ) (h : workerId ≤ MAX_WORKER_ID) : SnowflakeGenerator :=
  ⟨workerId, -1, 0, h, Nat.zero_le _⟩

/-- The id of a millisecond, worker and sequence number. -/
def pack (t : ℤ) (worker seq : ℕ) : UInt64 :=
  (UInt64.ofInt (t - CUSTOM_EPOCH_MS) <<< UInt64.ofNat (WORKER_ID_BITS + SEQUENCE_BITS)) |||
    (UInt64.ofNat worker <<< UInt64.ofNat SEQUENCE_BITS) ||| UInt64.ofNat seq

/-- Wait for a clock that stepped back behind `last`. Each round reads it
twice: once for the deadline, once for the timestamp. -/
def awaitClock (last : ℤ) : ℤ → List ℤ → Wait
  | t, [] => if last < t then .passed t [] else .waiting
  | t, [r] => if last < t then .passed t [r] else if last + kMaxClockWaitMs < r then .thrown else .waiting
  | t, r :: r' :: rs =>
    if last < t then .passed t (r :: r' :: rs)
    else if last + kMaxClockWaitMs < r then .thrown
    else awaitClock last r' rs

/-- Wait for the millisecond after `last`. -/
def awaitNextMs (last : ℤ) : ℤ → List ℤ → Wait
  | t, [] => if last < t then .passed t [] else .waiting
  | t, r :: rs => if last < t then .passed t (r :: rs) else awaitNextMs last r rs

/-- Return the id of the millisecond and sequence number, and remember them. -/
def draw (g : SnowflakeGenerator) (t : ℤ) (seq : ℕ) (h : seq ≤ MAX_SEQUENCE) : NextId :=
  .returned (pack t g.workerId seq) { g with lastTimestampMs := t, sequence := seq, sequence_le := h }

theorem succ_and_le (seq : ℕ) : (seq + 1) &&& MAX_SEQUENCE ≤ MAX_SEQUENCE := Nat.and_le_right

/-- Draw the next id, with the clock reading as given. -/
def nextId (g : SnowflakeGenerator) : List ℤ → NextId
  | [] => .waiting
  | r :: rs =>
    match if r < g.lastTimestampMs then awaitClock g.lastTimestampMs r rs else .passed r rs with
    | .thrown => .thrown
    | .waiting => .waiting
    | .passed t rs =>
      if t = g.lastTimestampMs then
        if (g.sequence + 1) &&& MAX_SEQUENCE = 0 then
          match awaitNextMs g.lastTimestampMs t rs with
          | .passed t _ => g.draw t 0 (Nat.zero_le _)
          | .thrown => .thrown
          | .waiting => .waiting
        else g.draw t ((g.sequence + 1) &&& MAX_SEQUENCE) (succ_and_le g.sequence)
      else g.draw t 0 (Nat.zero_le _)

/-! ### The bits of an id -/

theorem toNat_pack {t : ℤ} {worker seq : ℕ} (hw : worker ≤ MAX_WORKER_ID) (hs : seq ≤ MAX_SEQUENCE) :
    (pack t worker seq).toNat = ((t - CUSTOM_EPOCH_MS) % 2 ^ 42).toNat * 2 ^ 22 + (worker * 2 ^ 12 + seq) := by
  have hw' : worker < 2 ^ 10 := Nat.lt_succ_of_le hw
  have hs' : seq < 2 ^ 12 := Nat.lt_succ_of_le hs
  -- the shift drops the bits of the milliseconds above the 42nd
  have hms : (UInt64.ofInt (t - CUSTOM_EPOCH_MS) <<< UInt64.ofNat (WORKER_ID_BITS + SEQUENCE_BITS)).toNat =
      ((t - CUSTOM_EPOCH_MS) % 2 ^ 42).toNat <<< 22 := by
    rw [UInt64.toNat_shiftLeft, UInt64.ofInt, UInt64.toNat_ofNat', Nat.shiftLeft_eq, Nat.shiftLeft_eq]
    show ((t - CUSTOM_EPOCH_MS) % 2 ^ 64).toNat % 2 ^ 64 * 2 ^ 22 % 2 ^ 64 = _
    omega
  have hworker : (UInt64.ofNat worker <<< UInt64.ofNat SEQUENCE_BITS).toNat = worker <<< 12 := by
    rw [UInt64.toNat_shiftLeft, UInt64.toNat_ofNat', Nat.shiftLeft_eq, Nat.shiftLeft_eq]
    show worker % 2 ^ 64 * 2 ^ 12 % 2 ^ 64 = _
    omega
  have hseq : (UInt64.ofNat seq).toNat = seq := by
    rw [UInt64.toNat_ofNat']
    omega
  have hlow : worker <<< 12 + seq < 2 ^ 22 := by
    rw [Nat.shiftLeft_eq]
    omega
  rw [pack, UInt64.toNat_or, UInt64.toNat_or, hms, hworker, hseq, Nat.or_assoc,
    ← Nat.shiftLeft_add_eq_or_of_lt hs', ← Nat.shiftLeft_add_eq_or_of_lt hlow, Nat.shiftLeft_eq, Nat.shiftLeft_eq]

/-! ### One call -/

/-- A call that returns packs the timestamp and the sequence number that the
generator then remembers. -/
theorem nextId_returned {g g' : SnowflakeGenerator} {rs : List ℤ} {id : UInt64}
    (h : g.nextId rs = .returned id g') : g'.workerId = g.workerId ∧
      id = pack g'.lastTimestampMs g'.workerId g'.sequence := by
  have hdraw : ∀ {t seq hs}, g.draw t seq hs = .returned id g' →
      g'.workerId = g.workerId ∧ id = pack g'.lastTimestampMs g'.workerId g'.sequence := by
    intro t seq hs h
    cases h
    exact ⟨rfl, rfl⟩
  cases rs with
  | nil => cases h
  | cons r rs =>
    simp only [nextId] at h
    split at h
    · cases h
    · cases h
    · split at h
      · split at h
        · split at h
          · exact hdraw h
          · cases h
          · cases h
        · exact hdraw h
      · exact hdraw h

end SnowflakeGenerator
end Core
end Amind
