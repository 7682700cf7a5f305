/-
# How long a generator waits for a clock that stepped back

The wait is meant to be capped, but what is compared with the deadline of
`last + 5000` is a fresh reading of the clock, not the time waited: as long as
the clock is behind, the deadline is not reached, and once a reading is past it
the wait would be over. So a call waits for as many readings as the clock needs
to catch up, and where it throws the clock has caught up.

Each round reads the clock twice. The readings with an even number become the
timestamp and those with an odd number only meet the deadline, so what a call
comes to depends on the number of the first reading past `last` (`FoundInTime`).
-/
import Mathlib.Algebra.Order.Ring.Int
import Amind.Core.SnowflakeOrder

namespace Amind
namespace Core
namespace SnowflakeGenerator

/-- The clock moves on by a millisecond or more from one reading to the next. -/
def Advances (s : ℕ → ℤ) : Prop := ∀ k, s k + 1 ≤ s (k + 1)

/-- `n` readings of a stream, from the `k`-th. -/
def readings (s : ℕ → ℤ) (k n : ℕ) : List ℤ := (List.range' k n).map s

@[simp] theorem readings_zero (s : ℕ → ℤ) (k : ℕ) : readings s k 0 = [] := rfl

@[simp] theorem readings_succ (s : ℕ → ℤ) (k n : ℕ) :
    readings s k (n + 1) = s k :: readings s (k + 1) n := by
  simp [readings, List.range'_succ]

theorem readings_append (s : ℕ → ℤ) (k n n' : ℕ) :
    readings s k n ++ readings s (k + n) n' = readings s k (n + n') := by
  simp [readings, ← List.map_append, List.range'_append_1]

theorem Advances.le {s : ℕ → ℤ} (hs : Advances s) {j k : ℕ} (h : j ≤ k) : s j ≤ s k := by
  induction h with
  | refl => exact le_rfl
  | step _ ih => exact ih.trans ((Int.le_add_one le_rfl).trans (hs _))

/-! ### The wait -/

/-- A wait gives up only on a reading past the deadline. -/
theorem awaitClock_thrown {last : ℤ} : ∀ {t : ℤ} {rs : List ℤ}, awaitClock last t rs = .thrown →
    ∃ r ∈ rs, last + kMaxClockWaitMs < r
  | t, [], h => by
    simp only [awaitClock] at h
    split at h <;> cases h
  | t, [r], h => by
    simp only [awaitClock] at h
    split at h
    · cases h
    · split at h
      · rename_i hr
        exact ⟨r, by simp, hr⟩
      · cases h
  | t, r :: r' :: rs, h => by
    simp only [awaitClock] at h
    split at h
    · cases h
    · split at h
      · rename_i hr
        exact ⟨r, by simp, hr⟩
      · obtain ⟨x, hx, hlt⟩ := awaitClock_thrown h
        exact ⟨x, by simp [hx], hlt⟩

/-- A wait that has given up does not see later readings. -/
theorem awaitClock_thrown_append {last : ℤ} : ∀ {t : ℤ} {rs : List ℤ} (rs' : List ℤ),
    awaitClock last t rs = .thrown → awaitClock last t (rs ++ rs') = .thrown
  | t, [], _, h => by
    simp only [awaitClock] at h
    split at h <;> cases h
  | t, [r], rs', h => by
    cases rs' with
    | nil => exact h
    | cons r' rs' =>
      simp only [awaitClock, List.cons_append, List.nil_append] at h ⊢
      split_ifs at h ⊢
      rfl
  | t, r :: r' :: rs, rs', h => by
    simp only [awaitClock, List.cons_append] at h ⊢
    split_ifs at h ⊢
    · rfl
    · exact awaitClock_thrown_append rs' h

/-- The first reading past `last`, counted from the `k`-th, ends the wait within
`n` readings after that: as the timestamp itself, or with the one after it where
the deadline lets it through. -/
def EndsWait (last : ℤ) (s : ℕ → ℤ) (k n m : ℕ) : Prop :=
  last < s m ∧ (∀ j, k ≤ j → j < m → s j ≤ last) ∧
    (m % 2 = k % 2 ∧ m ≤ k + n ∨ m % 2 ≠ k % 2 ∧ s m ≤ last + kMaxClockWaitMs ∧ m + 1 ≤ k + n)

theorem EndsWait.lt {last : ℤ} {s : ℕ → ℤ} {k n m : ℕ} (hs : Advances s) (hk : s k ≤ last)
    (h : EndsWait last s k n m) : k < m := by
  by_contra hle
  have := hs.le (Nat.le_of_not_lt hle)
  have := h.1
  omega

/-- A round whose two readings are not past `last` changes nothing. -/
theorem endsWait_add_two {last : ℤ} {s : ℕ → ℤ} {k n m : ℕ} (hs : Advances s) (hk : s (k + 2) ≤ last) :
    EndsWait last s k (n + 2) m ↔ EndsWait last s (k + 2) n m := by
  have hbelow : ∀ j, j ≤ k + 2 → s j ≤ last := fun j hj => (hs.le hj).trans hk
  constructor
  · rintro ⟨hm, hfirst, hnum⟩
    exact ⟨hm, fun j hj => hfirst j (by omega), by omega⟩
  · rintro ⟨hm, hfirst, hnum⟩
    refine ⟨hm, fun j _ hj => ?_, by omega⟩
    by_cases hj' : j ≤ k + 2
    · exact hbelow j hj'
    · exact hfirst j (by omega) hj

/-- What a wait comes to, by induction on its rounds. -/
theorem awaitClock_passed_iff {last : ℤ} {s : ℕ → ℤ} (hs : Advances s) : ∀ (n k : ℕ), s k ≤ last →
    ((∃ t rest, awaitClock last (s k) (readings s (k + 1) n) = .passed t rest) ↔ ∃ m, EndsWait last s k n m)
  | 0, k, hk => by
    simp only [readings_zero, awaitClock, if_neg (not_lt.mpr hk), reduceCtorEq, exists_false, false_iff,
      not_exists]
    intro m h
    have := h.lt hs hk
    have := h.2.2
    omega
  | 1, k, hk => by
    simp only [readings_succ, readings_zero, awaitClock, if_neg (not_lt.mpr hk)]
    constructor
    · rintro ⟨t, rest, h⟩
      split at h <;> cases h
    · rintro ⟨m, h⟩
      have := h.lt hs hk
      have := h.2.2
      omega
  | n + 2, k, hk => by
    simp only [readings_succ, awaitClock, if_neg (not_lt.mpr hk)]
    by_cases hdead : last + kMaxClockWaitMs < s (k + 1)
    · -- the deadline's reading is the first past `last`, and too far
      simp only [if_pos hdead, reduceCtorEq, exists_false, false_iff, not_exists]
      intro m h
      have hlt := h.lt hs hk
      have hm : m = k + 1 := by
        by_contra hne
        have := h.2.1 (k + 1) (by omega) (by omega)
        simp only [kMaxClockWaitMs] at hdead
        omega
      subst hm
      have := h.2.2
      omega
    · rw [if_neg hdead]
      by_cases hk2 : s (k + 1 + 1) ≤ last
      · rw [awaitClock_passed_iff hs n (k + 1 + 1) hk2]
        exact exists_congr fun m => (endsWait_add_two hs hk2).symm
      · -- this round ends the wait
        have hpassed : awaitClock last (s (k + 1 + 1)) (readings s (k + 1 + 1 + 1) n) =
            .passed (s (k + 1 + 1)) (readings s (k + 1 + 1 + 1) n) := by
          cases n with
          | zero => simp [awaitClock, not_le.mp hk2]
          | succ n => cases n <;> simp [awaitClock, not_le.mp hk2]
        refine ⟨fun _ => ?_, fun _ => ⟨_, _, hpassed⟩⟩
        by_cases hk1 : s (k + 1) ≤ last
        · refine ⟨k + 2, not_le.mp hk2, fun j hj hj' => ?_, by omega⟩
          exact (hs.le (by omega : j ≤ k + 1)).trans hk1
        · refine ⟨k + 1, not_le.mp hk1, fun j hj hj' => ?_, by omega⟩
          exact (hs.le (by omega : j ≤ k)).trans hk

/-! ### A call behind the clock -/

/-- A call whose first reading is behind comes to what its wait comes to. -/
theorem nextId_of_behind {g : SnowflakeGenerator} {r : ℤ} (rs : List ℤ) (hr : r < g.lastTimestampMs) :
    g.nextId (r :: rs) =
      match awaitClock g.lastTimestampMs r rs with
      | .passed t _ => g.draw t 0 (Nat.zero_le _)
      | .thrown => .thrown
      | .waiting => .waiting := by
  simp only [nextId, if_pos hr]
  split
  · simp_all
  · simp_all
  · rename_i t rest hwait
    have hlt := (awaitClock_passed hwait).1
    rw [if_neg hlt.ne', hwait]

theorem nextId_thrown {g : SnowflakeGenerator} {r : ℤ} {rs : List ℤ} (hr : r < g.lastTimestampMs)
    (h : g.nextId (r :: rs) = .thrown) : ∃ x ∈ rs, g.lastTimestampMs + kMaxClockWaitMs < x := by
  rw [nextId_of_behind rs hr] at h
  split at h
  · cases h
  · exact awaitClock_thrown ‹_›
  · cases h

theorem nextId_thrown_append {g : SnowflakeGenerator} {r : ℤ} {rs : List ℤ} (rs' : List ℤ)
    (hr : r < g.lastTimestampMs) (h : g.nextId (r :: rs) = .thrown) :
    g.nextId (r :: (rs ++ rs')) = .thrown := by
  rw [nextId_of_behind rs hr] at h
  split at h
  · cases h
  · rename_i hwait
    rw [nextId_of_behind _ hr, awaitClock_thrown_append rs' hwait]
  · cases h

/-- The wait is capped at `bound` readings: the call finishes within them, throws
exactly when the clock is then still not past the last timestamp, and has taken
no reading past it when it throws. -/
structure CapsTheWait (bound : ℕ) (g : SnowflakeGenerator) (s : ℕ → ℤ) : Prop where
  finishes : g.nextId (readings s 0 bound) ≠ .waiting
  thrown_iff : g.nextId (readings s 0 bound) = .thrown ↔ ∀ k < bound, s k ≤ g.lastTimestampMs
  not_past : ∀ n ≤ bound, g.nextId (readings s 0 n) = .thrown → ∀ k < n, s k ≤ g.lastTimestampMs

/-- The first reading past the last timestamp comes within the bound, and becomes
the timestamp itself, or is not past the deadline and leaves room for one more. -/
def FoundInTime (bound : ℕ) (last : ℤ) (s : ℕ → ℤ) : Prop :=
  ∃ m, last < s m ∧ (∀ j < m, s j ≤ last) ∧
    (m % 2 = 0 ∧ m + 1 ≤ bound ∨ m % 2 = 1 ∧ s m ≤ last + kMaxClockWaitMs ∧ m + 2 ≤ bound)

/-- A call returns within the bound exactly if it finds its timestamp in time. -/
theorem returned_iff {g : SnowflakeGenerator} {s : ℕ → ℤ} (h0 : s 0 < g.lastTimestampMs) (hs : Advances s)
    (bound : ℕ) : (∃ id g', g.nextId (readings s 0 bound) = .returned id g') ↔
      FoundInTime bound g.lastTimestampMs s := by
  cases bound with
  | zero => simp [nextId, FoundInTime]
  | succ n =>
    have hwait := awaitClock_passed_iff hs n 0 h0.le
    rw [readings_succ, nextId_of_behind _ h0]
    calc _ ↔ ∃ t rest, awaitClock g.lastTimestampMs (s 0) (readings s (0 + 1) n) = .passed t rest := by
          constructor
          · rintro ⟨id, g', h⟩
            split at h
            · exact ⟨_, _, ‹_›⟩
            · cases h
            · cases h
          · rintro ⟨t, rest, h⟩
            rw [h]
            exact ⟨_, _, rfl⟩
      _ ↔ ∃ m, EndsWait g.lastTimestampMs s 0 n m := hwait
      _ ↔ FoundInTime (n + 1) g.lastTimestampMs s := by
          apply exists_congr
          intro m
          simp only [EndsWait, Nat.zero_le, forall_const]
          refine and_congr_right fun _ => and_congr_right fun _ => ?_
          omega

/-- **The wait is capped exactly where the clock is found past the last timestamp
within the bound, by a reading that the deadline does not refuse.** -/
theorem capsTheWait_iff (bound : ℕ) (g : SnowflakeGenerator) (s : ℕ → ℤ) (h0 : s 0 < g.lastTimestampMs)
    (hs : Advances s) : CapsTheWait bound g s ↔ FoundInTime bound g.lastTimestampMs s := by
  rw [← returned_iff h0 hs bound]
  have hnever : ∀ n, g.nextId (readings s 0 n) = .thrown → ∃ k < n, g.lastTimestampMs < s k := by
    intro n h
    cases n with
    | zero => simp [nextId] at h
    | succ n =>
      obtain ⟨x, hx, hlt⟩ := nextId_thrown h0 (by simpa using h)
      obtain ⟨k, hk, rfl⟩ := List.mem_map.mp hx
      rw [List.mem_range'_1] at hk
      refine ⟨k, by omega, ?_⟩
      simp only [kMaxClockWaitMs] at hlt
      omega
  constructor
  · intro h
    cases hnext : g.nextId (readings s 0 bound) with
    | returned id g' => exact ⟨id, g', rfl⟩
    | waiting => exact absurd hnext h.finishes
    | thrown =>
      obtain ⟨k, hk, hlt⟩ := hnever bound hnext
      exact absurd (h.thrown_iff.mp hnext k hk) (not_le.mpr hlt)
  · rintro ⟨id, g', hnext⟩
    refine ⟨by simp [hnext], ?_, fun n hn hthrown => ?_⟩
    · obtain ⟨m, hm, -, hbound⟩ := (returned_iff h0 hs bound).mp ⟨id, g', hnext⟩
      simp only [hnext, reduceCtorEq, false_iff]
      intro hall
      exact absurd (hall m (by omega)) (not_le.mpr hm)
    · -- a call that gave up earlier would not have returned
      obtain ⟨k, hk, -⟩ := hnever n hthrown
      obtain ⟨n, rfl⟩ : ∃ n', n = n' + 1 := ⟨n - 1, by omega⟩
      have hlater := nextId_thrown_append (readings s (0 + (n + 1)) (bound - (n + 1))) h0 (by simpa using hthrown)
      have hcat := readings_append s 0 (n + 1) (bound - (n + 1))
      rw [Nat.add_sub_cancel' hn] at hcat
      rw [readings_succ, List.cons_append] at hcat
      rw [hcat, hnext] at hlater
      cases hlater

/-- No bound is one: a clock that is further behind than the bound is waited for.
And a call throws on a clock that is past the last timestamp. -/
theorem not_capsTheWait :
    (¬∃ bound, ∀ (g : SnowflakeGenerator) (s : ℕ → ℤ), s 0 < g.lastTimestampMs → Advances s →
      CapsTheWait bound g s) ∧
    ∃ (g : SnowflakeGenerator) (s : ℕ → ℤ), s 0 < g.lastTimestampMs ∧ Advances s ∧
      g.lastTimestampMs < s 1 ∧ g.nextId (readings s 0 2) = .thrown := by
  constructor
  · rintro ⟨bound, h⟩
    have h0 : ((0 : ℕ) : ℤ) < (bound : ℤ) + 1 := by omega
    have hcap := h ⟨0, bound + 1, 0, by decide, by decide⟩ (fun k => k) h0 (fun k => by simp)
    have hthrown := hcap.thrown_iff.mpr fun k hk => by simp; omega
    cases bound with
    | zero => simp [nextId] at hthrown
    | succ n =>
      obtain ⟨x, hx, hlt⟩ := nextId_thrown h0 (by simpa using hthrown)
      obtain ⟨k, hk, rfl⟩ := List.mem_map.mp hx
      rw [List.mem_range'_1] at hk
      simp [kMaxClockWaitMs] at hlt
      omega
  · refine ⟨⟨0, 1735689610000, 0, by decide, by decide⟩,
      fun k => if k = 0 then 1735689609999 else 1735689615000 + k, by decide, fun k => ?_, by decide, rfl⟩
    cases k <;> simp [Int.add_assoc]

theorem capsTheWait_twoBehind :
    let g : SnowflakeGenerator := ⟨0, 1735689600002, 0, by decide, by decide⟩
    let s : ℕ → ℤ := fun k => 1735689600000 + k
    CapsTheWait 5 g s ↔ FoundInTime 5 g.lastTimestampMs s :=
  capsTheWait_iff 5 _ _ (by decide) (fun k => by push_cast; omega)

end SnowflakeGenerator
end Core
end Amind
