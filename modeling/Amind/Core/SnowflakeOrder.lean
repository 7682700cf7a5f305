/-
# The order of snowflake ids

A generator remembers the timestamp and the sequence number of its last id, and
every id drawn moves the two up in lexicographic order, whether the clock moved
on, stood still or stepped back. As long as the readings lie in the 42 bits
after the custom epoch the ids are in the order of what they were built from,
and shifts and masks give that back.

A run is one call after the other, each with the readings it will see. A call
that throws leaves the generator as it was, and one that is still waiting is
the last.
-/
import Amind.Core.Snowflake

namespace Amind
namespace Core
namespace SnowflakeGenerator

def extractTimestamp (id : UInt64) : ℤ :=
  ((id >>> UInt64.ofNat (WORKER_ID_BITS + SEQUENCE_BITS)).toNat : ℤ) + CUSTOM_EPOCH_MS

def extractWorkerId (id : UInt64) : ℕ :=
  ((id >>> UInt64.ofNat SEQUENCE_BITS) &&& UInt64.ofNat MAX_WORKER_ID).toNat

def extractSequence (id : UInt64) : ℕ := (id &&& UInt64.ofNat MAX_SEQUENCE).toNat

/-- A reading in the 42 bits after the custom epoch. -/
def InRange (t : ℤ) : Prop := CUSTOM_EPOCH_MS ≤ t ∧ t < CUSTOM_EPOCH_MS + 2 ^ 42

instance (t : ℤ) : Decidable (InRange t) := inferInstanceAs (Decidable (_ ∧ _))

/-! ### What an id was built from -/

theorem toNat_pack_of_inRange {t : ℤ} {worker seq : ℕ} (ht : InRange t) (hw : worker ≤ MAX_WORKER_ID)
    (hs : seq ≤ MAX_SEQUENCE) :
    ((pack t worker seq).toNat : ℤ) = (t - CUSTOM_EPOCH_MS) * 2 ^ 22 + (worker * 2 ^ 12 + seq) := by
  obtain ⟨hlow, hhigh⟩ := ht
  rw [toNat_pack hw hs]
  have hmod : (t - CUSTOM_EPOCH_MS) % 2 ^ 42 = t - CUSTOM_EPOCH_MS := Int.emod_eq_of_lt (by omega) (by omega)
  rw [hmod]
  omega

theorem extractTimestamp_pack {t : ℤ} {worker seq : ℕ} (ht : InRange t) (hw : worker ≤ MAX_WORKER_ID)
    (hs : seq ≤ MAX_SEQUENCE) : extractTimestamp (pack t worker seq) = t := by
  have hpack := toNat_pack_of_inRange ht hw hs
  have hshift : (pack t worker seq >>> UInt64.ofNat (WORKER_ID_BITS + SEQUENCE_BITS)).toNat =
      (pack t worker seq).toNat / 2 ^ 22 := by
    rw [UInt64.toNat_shiftRight, Nat.shiftRight_eq_div_pow]
    rfl
  simp only [MAX_WORKER_ID, MAX_SEQUENCE, WORKER_ID_BITS, SEQUENCE_BITS] at hw hs
  rw [extractTimestamp, hshift]
  omega

/-- Whatever the reading, the id tells it modulo `2 ^ 42`. -/
theorem extractTimestamp_pack_modEq (t : ℤ) {worker seq : ℕ} (hw : worker ≤ MAX_WORKER_ID) (hs : seq ≤ MAX_SEQUENCE) :
    extractTimestamp (pack t worker seq) ≡ t [ZMOD 2 ^ 42] := by
  have hpack := toNat_pack (t := t) hw hs
  have hshift : (pack t worker seq >>> UInt64.ofNat (WORKER_ID_BITS + SEQUENCE_BITS)).toNat =
      (pack t worker seq).toNat / 2 ^ 22 := by
    rw [UInt64.toNat_shiftRight, Nat.shiftRight_eq_div_pow]
    rfl
  simp only [MAX_WORKER_ID, MAX_SEQUENCE, WORKER_ID_BITS, SEQUENCE_BITS] at hw hs
  rw [extractTimestamp, hshift, Int.ModEq]
  omega

theorem extractWorkerId_pack {t : ℤ} {worker seq : ℕ} (ht : InRange t) (hw : worker ≤ MAX_WORKER_ID)
    (hs : seq ≤ MAX_SEQUENCE) : extractWorkerId (pack t worker seq) = worker := by
  have hpack := toNat_pack_of_inRange ht hw hs
  have hshift : (pack t worker seq >>> UInt64.ofNat SEQUENCE_BITS).toNat =
      (pack t worker seq).toNat / 2 ^ 12 := by
    rw [UInt64.toNat_shiftRight, Nat.shiftRight_eq_div_pow]
    rfl
  have hmask : (UInt64.ofNat MAX_WORKER_ID).toNat = 2 ^ 10 - 1 := rfl
  simp only [MAX_WORKER_ID, MAX_SEQUENCE, WORKER_ID_BITS, SEQUENCE_BITS] at hw hs
  rw [extractWorkerId, UInt64.toNat_and, hshift, hmask, Nat.and_two_pow_sub_one_eq_mod]
  omega

theorem extractSequence_pack {t : ℤ} {worker seq : ℕ} (ht : InRange t) (hw : worker ≤ MAX_WORKER_ID)
    (hs : seq ≤ MAX_SEQUENCE) : extractSequence (pack t worker seq) = seq := by
  have hpack := toNat_pack_of_inRange ht hw hs
  have hmask : (UInt64.ofNat MAX_SEQUENCE).toNat = 2 ^ 12 - 1 := rfl
  simp only [MAX_SEQUENCE, SEQUENCE_BITS] at hs
  rw [extractSequence, UInt64.toNat_and, hmask, Nat.and_two_pow_sub_one_eq_mod]
  omega

/-! ### One call -/

/-- The timestamp and sequence number of `g` come before those of `g'`. -/
def Before (g g' : SnowflakeGenerator) : Prop :=
  g.lastTimestampMs < g'.lastTimestampMs ∨
    g.lastTimestampMs = g'.lastTimestampMs ∧ g.sequence < g'.sequence

theorem Before.trans {g g' g'' : SnowflakeGenerator} (h : Before g g') (h' : Before g' g'') : Before g g'' := by
  unfold Before at *
  omega

/-- Ids are in the order of what they were built from. -/
theorem pack_lt_of_before {g g' : SnowflakeGenerator} (h : Before g g') (hw : g'.workerId = g.workerId)
    (ht : InRange g.lastTimestampMs) (ht' : InRange g'.lastTimestampMs) :
    pack g.lastTimestampMs g.workerId g.sequence < pack g'.lastTimestampMs g'.workerId g'.sequence := by
  have hpack := toNat_pack_of_inRange ht g.worker_le g.sequence_le
  have hpack' := toNat_pack_of_inRange ht' g'.worker_le g'.sequence_le
  have hseq := g.sequence_le
  have hworker := g.worker_le
  rw [hw] at hpack' ⊢
  simp only [MAX_WORKER_ID, MAX_SEQUENCE, WORKER_ID_BITS, SEQUENCE_BITS] at hseq hworker
  rw [UInt64.lt_iff_toNat_lt]
  unfold Before at h
  omega

/-- A wait for the clock ends with a reading past the last timestamp. -/
theorem awaitClock_passed {last t' : ℤ} : ∀ {t : ℤ} {rs rest : List ℤ},
    awaitClock last t rs = .passed t' rest → last < t' ∧ t' ∈ t :: rs ∧ ∀ r ∈ rest, r ∈ rs
  | t, [], rest, h => by
    simp only [awaitClock] at h
    split at h <;> simp_all
  | t, [r], rest, h => by
    simp only [awaitClock] at h
    split at h
    · simp_all
    · split at h <;> cases h
  | t, r :: r' :: rs, rest, h => by
    simp only [awaitClock] at h
    split at h
    · simp_all
    · split at h
      · cases h
      · obtain ⟨hlt, hmem, hrest⟩ := awaitClock_passed h
        exact ⟨hlt, by simp_all, fun x hx => by simp [hrest x hx]⟩

theorem awaitNextMs_passed {last t' : ℤ} : ∀ {t : ℤ} {rs rest : List ℤ},
    awaitNextMs last t rs = .passed t' rest → last < t' ∧ t' ∈ t :: rs
  | t, [], rest, h => by
    simp only [awaitNextMs] at h
    split at h <;> simp_all
  | t, r :: rs, rest, h => by
    simp only [awaitNextMs] at h
    split at h
    · simp_all
    · obtain ⟨hlt, hmem⟩ := awaitNextMs_passed h
      exact ⟨hlt, List.mem_cons_of_mem t hmem⟩

/-- What the state after a call that returns is: the same worker, moved up, at
one of the readings. -/
structure Drawn (g : SnowflakeGenerator) (rs : List ℤ) (g' : SnowflakeGenerator) : Prop where
  worker : g'.workerId = g.workerId
  before : Before g g'
  reading : g'.lastTimestampMs ∈ rs

/-- A draw at a later millisecond. -/
theorem drawn_of_lt {g g' : SnowflakeGenerator} {rs : List ℤ} {t : ℤ} {seq : ℕ} {hs : seq ≤ MAX_SEQUENCE}
    {id : UInt64} (hlt : g.lastTimestampMs < t) (hmem : t ∈ rs) (h : g.draw t seq hs = .returned id g') :
    Drawn g rs g' := by
  cases h
  exact ⟨rfl, .inl hlt, hmem⟩

/-- A draw in the same millisecond takes the next sequence number. -/
theorem drawn_of_eq {g g' : SnowflakeGenerator} {rs : List ℤ} {id : UInt64}
    (hmem : g.lastTimestampMs ∈ rs) (hseq : (g.sequence + 1) &&& MAX_SEQUENCE ≠ 0)
    (h : g.draw g.lastTimestampMs ((g.sequence + 1) &&& MAX_SEQUENCE) (succ_and_le g.sequence) = .returned id g') :
    Drawn g rs g' := by
  have hmask : (g.sequence + 1) &&& MAX_SEQUENCE = (g.sequence + 1) % 2 ^ 12 :=
    Nat.and_two_pow_sub_one_eq_mod _ 12
  have hle := g.sequence_le
  simp only [MAX_SEQUENCE, SEQUENCE_BITS] at hle
  cases h
  refine ⟨rfl, .inr ⟨rfl, ?_⟩, hmem⟩
  show g.sequence < (g.sequence + 1) &&& MAX_SEQUENCE
  omega

theorem nextId_drawn {g g' : SnowflakeGenerator} {rs : List ℤ} {id : UInt64}
    (h : g.nextId rs = .returned id g') : Drawn g rs g' := by
  cases rs with
  | nil => cases h
  | cons r rs =>
    simp only [nextId] at h
    -- past the wait the timestamp is a reading, and not below the last one
    split at h
    · cases h
    · cases h
    · rename_i t rest hwait
      have ht : g.lastTimestampMs ≤ t ∧ t ∈ r :: rs ∧ ∀ x ∈ rest, x ∈ rs := by
        split at hwait
        · obtain ⟨hlt, hmem, hrest⟩ := awaitClock_passed hwait
          exact ⟨hlt.le, hmem, hrest⟩
        · cases hwait
          exact ⟨by omega, by simp, fun x hx => hx⟩
      split at h
      · rename_i heq
        split at h
        · split at h
          · rename_i t' rest' hnext
            obtain ⟨hlt, hmem⟩ := awaitNextMs_passed hnext
            refine drawn_of_lt hlt ?_ h
            obtain rfl | hmem := List.mem_cons.mp hmem
            · exact ht.2.1
            · exact List.mem_cons_of_mem r (ht.2.2 _ hmem)
          · cases h
          · cases h
        · rename_i hseq
          subst heq
          exact drawn_of_eq ht.2.1 hseq h
      · exact drawn_of_lt (by omega) ht.2.1 h

/-! ### Runs -/

/-- The ids drawn by calls one after the other, each with the generator after
it. -/
def draws : SnowflakeGenerator → List (List ℤ) → List (UInt64 × SnowflakeGenerator)
  | _, [] => []
  | g, rs :: calls =>
    match g.nextId rs with
    | .returned id g' => (id, g') :: draws g' calls
    | .thrown => draws g calls
    | .waiting => []

/-- Every draw of a run comes after the generator it starts from. -/
theorem draws_after : ∀ {calls : List (List ℤ)} {g : SnowflakeGenerator},
    (∀ rs ∈ calls, ∀ t ∈ rs, InRange t) → ∀ d ∈ draws g calls,
      d.2.workerId = g.workerId ∧ Before g d.2 ∧ InRange d.2.lastTimestampMs ∧
        d.1 = pack d.2.lastTimestampMs d.2.workerId d.2.sequence
  | [], _, _, d, hd => by simp [draws] at hd
  | rs :: calls, g, hr, d, hd => by
    obtain ⟨hrs, hcalls⟩ := List.forall_mem_cons.mp hr
    simp only [draws] at hd
    split at hd
    · rename_i id g' hnext
      have hdrawn := nextId_drawn hnext
      obtain rfl | hd := List.mem_cons.mp hd
      · exact ⟨hdrawn.worker, hdrawn.before, hrs _ hdrawn.reading, (nextId_returned hnext).2⟩
      · obtain ⟨hw, hb, hin, hid⟩ := draws_after hcalls d hd
        exact ⟨hw.trans hdrawn.worker, hdrawn.before.trans hb, hin, hid⟩
    · exact draws_after hcalls d hd
    · cases hd

theorem draws_pairwise : ∀ {calls : List (List ℤ)} {g : SnowflakeGenerator},
    (∀ rs ∈ calls, ∀ t ∈ rs, InRange t) → (draws g calls).Pairwise fun d d' => d.1 < d'.1
  | [], _, _ => List.Pairwise.nil
  | rs :: calls, g, hr => by
    obtain ⟨hrs, hcalls⟩ := List.forall_mem_cons.mp hr
    simp only [draws]
    split
    · rename_i id g' hnext
      refine List.pairwise_cons.mpr ⟨fun d hd => ?_, draws_pairwise hcalls⟩
      obtain ⟨hw, hb, hin, hid⟩ := draws_after hcalls d hd
      have hin' := hrs _ (nextId_drawn hnext).reading
      show id < d.1
      rw [(nextId_returned hnext).2, hid]
      exact pack_lt_of_before hb hw hin' hin
    · exact draws_pairwise hcalls
    · exact List.Pairwise.nil

/-- **The ids of one generator are strictly increasing, and each gives back the
timestamp, worker id and sequence number it was built from.** -/
theorem draws_increasing (g : SnowflakeGenerator) (calls : List (List ℤ))
    (hr : ∀ rs ∈ calls, ∀ t ∈ rs, InRange t) :
    ((draws g calls).map (·.1)).Pairwise (· < ·) ∧
      ∀ d ∈ draws g calls, d.1 = pack d.2.lastTimestampMs g.workerId d.2.sequence ∧
        extractTimestamp d.1 = d.2.lastTimestampMs ∧ extractWorkerId d.1 = g.workerId ∧
        extractSequence d.1 = d.2.sequence := by
  refine ⟨List.pairwise_map.mpr (draws_pairwise hr), fun d hd => ?_⟩
  obtain ⟨hw, -, hin, hid⟩ := draws_after hr d hd
  have hle := d.2.worker_le
  rw [hw] at hid hle
  rw [hid]
  exact ⟨rfl, extractTimestamp_pack hin hle d.2.sequence_le, extractWorkerId_pack hin hle d.2.sequence_le,
    extractSequence_pack hin hle d.2.sequence_le⟩

/-- A clock that stands still, steps back and moves on. -/
theorem draws_increasing_stepBack :
    let calls : List (List ℤ) := [[1735689600005], [1735689600005],
      [1735689600003, 1735689600004, 1735689600006]]
    (((draws (make 7 (by decide)) calls).map (·.1)).Pairwise (· < ·) ∧
      ∀ d ∈ draws (make 7 (by decide)) calls, d.1 = pack d.2.lastTimestampMs 7 d.2.sequence ∧
        extractTimestamp d.1 = d.2.lastTimestampMs ∧ extractWorkerId d.1 = 7 ∧
        extractSequence d.1 = d.2.sequence) :=
  draws_increasing (make 7 (by decide)) _ (by decide)

end SnowflakeGenerator
end Core
end Amind
