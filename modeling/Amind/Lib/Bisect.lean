/-
# Bisection

The two loops over ascending keys `key 0 < key 1 < …`: `find` looks for a key
(`find_spec`), `lastLe` for the last one that is not above a key
(`lastLe_spec`). Bounds are inclusive and the answer is −1 if there is none.
Each round halves the range, so as many rounds as there are keys are enough.
-/
import Mathlib.Order.Lattice
import Mathlib.Data.Int.Order.Basic

namespace Amind
namespace Bisect

variable {K : Type} [LinearOrder K] (key : ℕ → K) (k : K)

/-- Where the key is between the bounds. -/
def find : ℕ → ℤ → ℤ → ℤ
  | 0, _, _ => -1
  | fuel + 1, low, high =>
    if low ≤ high then
      let mid := low + (high - low) / 2
      if key mid.toNat = k then mid
      else if key mid.toNat < k then find fuel (mid + 1) high
      else find fuel low (mid - 1)
    else -1

/-- The last key between the bounds that is not above `k`, or else `result`. -/
def lastLe : ℕ → ℤ → ℤ → ℤ → ℤ
  | 0, _, _, result => result
  | fuel + 1, low, high, result =>
    if low ≤ high then
      let mid := low + (high - low) / 2
      if key mid.toNat ≤ k then lastLe fuel (mid + 1) high mid
      else lastLe fuel low (mid - 1) result
    else result

/-- Both loops over keys that are read, which can fail. -/
def findM {ε : Type} (read : ℕ → Except ε K) (k : K) : ℕ → ℤ → ℤ → Except ε ℤ
  | 0, _, _ => .ok (-1)
  | fuel + 1, low, high =>
    if low ≤ high then do
      let mid := low + (high - low) / 2
      let m ← read mid.toNat
      if m = k then .ok mid
      else if m < k then findM read k fuel (mid + 1) high
      else findM read k fuel low (mid - 1)
    else .ok (-1)

def lastLeM {ε : Type} (read : ℕ → Except ε K) (k : K) : ℕ → ℤ → ℤ → ℤ → Except ε ℤ
  | 0, _, _, result => .ok result
  | fuel + 1, low, high, result =>
    if low ≤ high then do
      let mid := low + (high - low) / 2
      let m ← read mid.toNat
      if m ≤ k then lastLeM read k fuel (mid + 1) high mid
      else lastLeM read k fuel low (mid - 1) result
    else .ok result

/-- The first `n` keys ascend. -/
def Ascends (n : ℕ) : Prop := ∀ i j, i < j → j < n → key i < key j

variable {key k}

theorem Ascends.le {n i j : ℕ} (h : Ascends key n) (hij : i ≤ j) (hj : j < n) : key i ≤ key j := by
  rcases Nat.lt_or_eq_of_le hij with hlt | rfl
  · exact (h i j hlt hj).le
  · exact le_rfl

/-- What both loops keep: the keys below the range are not above `k`, those
above it are. -/
structure Between (key : ℕ → K) (k : K) (n : ℕ) (low high : ℤ) : Prop where
  nonneg : 0 ≤ low
  lt : high < n
  below : ∀ i < n, (i : ℤ) < low → key i ≤ k
  above : ∀ i < n, high < (i : ℤ) → k < key i

namespace Between

variable {n : ℕ} {low high : ℤ}

theorem start (n : ℕ) : Between key k n 0 ((n : ℤ) - 1) :=
  ⟨le_rfl, by omega, fun i _ h => by omega, fun i hi h => by omega⟩

/-- The middle of the range. -/
theorem mid (h : Between key k n low high) (hle : low ≤ high) :
    ∃ m : ℕ, low + (high - low) / 2 = m ∧ m < n ∧ low ≤ m ∧ m ≤ high := by
  have hpos := h.nonneg
  have hlt := h.lt
  refine ⟨(low + (high - low) / 2).toNat, ?_, ?_, ?_, ?_⟩ <;> omega

theorem right (h : Between key k n low high) (ha : Ascends key n) {m : ℕ} (hm : m < n) (hk : key m ≤ k) :
    Between key k n (m + 1) high := by
  refine ⟨by omega, h.lt, fun i _ hi => ?_, h.above⟩
  exact (ha.le (by omega) hm).trans hk

theorem left (h : Between key k n low high) (ha : Ascends key n) {m : ℕ} (hm : m < n) (hk : k < key m) :
    Between key k n low (m - 1) := by
  refine ⟨h.nonneg, by omega, h.below, fun i hi hmi => ?_⟩
  exact lt_of_lt_of_le hk (ha.le (by omega) hi)

/-- Once the range is empty, its bound tells the keys apart. -/
theorem le_iff (h : Between key k n low high) (hlt : high < low) {i : ℕ} (hi : i < n) : key i ≤ k ↔ (i : ℤ) < low := by
  rcases Int.lt_or_le (i : ℤ) low with hil | hil
  · exact iff_of_true (h.below i hi hil) hil
  · exact iff_of_false (not_le_of_gt (h.above i hi (by omega))) (by omega)

end Between

/-- The loop finds the key if it is there. -/
theorem find_spec {n : ℕ} (ha : Ascends key n) : ∀ (fuel : ℕ) (low high : ℤ), Between key k n low high →
    (∀ i < n, (i : ℤ) < low → key i ≠ k) → high - low < fuel →
    (find key k fuel low high = -1 ∧ ∀ i < n, key i ≠ k) ∨ ∃ i < n, find key k fuel low high = i ∧ key i = k
  | fuel, low, high, hb, hne, hfuel => by
    by_cases hle : low ≤ high
    · obtain ⟨fuel, rfl⟩ : ∃ f, fuel = f + 1 := ⟨fuel - 1, by omega⟩
      obtain ⟨m, hm, hn, hlow, hhigh⟩ := hb.mid hle
      simp only [find, if_pos hle, hm, Int.toNat_natCast]
      rcases lt_trichotomy (key m) k with hlt | heq | hgt
      · rw [if_neg hlt.ne, if_pos hlt]
        refine find_spec ha fuel _ _ (hb.right ha hn hlt.le) (fun i hi him => ?_) (by omega)
        exact (lt_of_le_of_lt (ha.le (by omega) hn) hlt).ne
      · rw [if_pos heq]
        exact .inr ⟨m, hn, rfl, heq⟩
      · rw [if_neg hgt.ne', if_neg hgt.not_gt]
        exact find_spec ha fuel _ _ (hb.left ha hn hgt) hne (by omega)
    · have hstop : find key k fuel low high = -1 := by
        cases fuel with
        | zero => rfl
        | succ fuel => simp only [find, if_neg hle]
      refine .inl ⟨hstop, fun i hi heq => ?_⟩
      exact hne i hi ((hb.le_iff (by omega) hi).mp heq.le) heq

/-- The loop finds the last key that is not above `k`. -/
theorem lastLe_spec {n : ℕ} (ha : Ascends key n) : ∀ (fuel : ℕ) (low high : ℤ), Between key k n low high →
    low ≤ n → high - low < fuel →
    -1 ≤ lastLe key k fuel low high (low - 1) ∧ lastLe key k fuel low high (low - 1) < n ∧
      ∀ i < n, key i ≤ k ↔ (i : ℤ) ≤ lastLe key k fuel low high (low - 1)
  | fuel, low, high, hb, hn, hfuel => by
    by_cases hle : low ≤ high
    · obtain ⟨fuel, rfl⟩ : ∃ f, fuel = f + 1 := ⟨fuel - 1, by omega⟩
      obtain ⟨m, hm, hmn, hlow, hhigh⟩ := hb.mid hle
      simp only [lastLe, if_pos hle, hm, Int.toNat_natCast]
      by_cases hk : key m ≤ k
      · rw [if_pos hk]
        have ih := lastLe_spec ha fuel (m + 1) high (hb.right ha hmn hk) (by omega) (by omega)
        rwa [Int.add_sub_cancel] at ih
      · rw [if_neg hk]
        exact lastLe_spec ha fuel low (m - 1) (hb.left ha hmn (not_le.mp hk)) hn (by omega)
    · have hstop : lastLe key k fuel low high (low - 1) = low - 1 := by
        cases fuel with
        | zero => rfl
        | succ fuel => simp only [lastLe, if_neg hle]
      have hpos := hb.nonneg
      rw [hstop]
      refine ⟨by omega, by omega, fun i hi => ?_⟩
      rw [hb.le_iff (by omega) hi, Int.le_sub_one_iff]

/-! ### What the loops read -/

variable {ε : Type} {read : ℕ → Except ε K} {n : ℕ}

omit [LinearOrder K] in
/-- A key that is read is used. -/
theorem bind_read (h : ∀ i < n, read i = .ok (key i)) {i : ℕ} (hi : i < n) (f : K → Except ε ℤ) :
    (read i >>= f) = f (key i) := by
  rw [h i hi]
  rfl

/-- The loops read keys between the bounds only, and answer one of these. Nothing is
said about their order. -/
theorem findM_eq (h : ∀ i < n, read i = .ok (key i)) : ∀ (fuel : ℕ) (low high : ℤ), 0 ≤ low → high < n →
    findM read k fuel low high = .ok (find key k fuel low high) ∧ find key k fuel low high < n
  | 0, _, _, _, _ => ⟨rfl, by unfold find; omega⟩
  | fuel + 1, low, high, hlow, hhigh => by
    unfold findM find
    by_cases hle : low ≤ high
    · have hmid : (low + (high - low) / 2).toNat < n := by omega
      rw [if_pos hle, if_pos hle, bind_read h hmid]
      dsimp only
      split
      · exact ⟨rfl, by omega⟩
      · split
        · exact findM_eq h fuel _ _ (by omega) hhigh
        · exact findM_eq h fuel _ _ hlow (by omega)
    · rw [if_neg hle, if_neg hle]
      exact ⟨rfl, by omega⟩

theorem lastLeM_eq (h : ∀ i < n, read i = .ok (key i)) : ∀ (fuel : ℕ) (low high result : ℤ), 0 ≤ low → high < n →
    result < n → lastLeM read k fuel low high result = .ok (lastLe key k fuel low high result) ∧
      lastLe key k fuel low high result < n
  | 0, _, _, _, _, _, hr => ⟨rfl, hr⟩
  | fuel + 1, low, high, result, hlow, hhigh, hr => by
    unfold lastLeM lastLe
    by_cases hle : low ≤ high
    · have hmid : (low + (high - low) / 2).toNat < n := by omega
      rw [if_pos hle, if_pos hle, bind_read h hmid]
      dsimp only
      split
      · exact lastLeM_eq h fuel _ _ _ (by omega) hhigh (by omega)
      · exact lastLeM_eq h fuel _ _ _ hlow (by omega) hr
    · rw [if_neg hle, if_neg hle]
      exact ⟨rfl, hr⟩

end Bisect
end Amind
