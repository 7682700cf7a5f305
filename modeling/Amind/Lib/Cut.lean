/-
# Cutting a text at machine positions

A text is searched and cut at 64-bit positions: what is not there is at `npos`,
positions wrap around, and a text cannot be cut behind its end. Of a text that
positions reach, what is cut from one position in it up to what is found behind
that position is what the search without positions says (`substr_findFrom`,
`substr_find`), also where nothing is found.

Key definitions: `npos`, `findFrom`, `substr`.
-/
import Amind.Lib.Search
import Mathlib.Data.UInt

namespace Amind
namespace Cut

open Search

/-- What the standard library throws. -/
inductive Thrown
  | outOfRange
  | filesystemError
  | other
  deriving DecidableEq, Repr

/-- What is done one after the other returns if both parts do. -/
theorem bind_eq_ok {ε α β : Type} {x : Except ε α} {f : α → Except ε β} {b : β} :
    x >>= f = .ok b ↔ ∃ a, x = .ok a ∧ f a = .ok b := by
  cases x with
  | error e => exact ⟨fun h => (by cases h), fun ⟨_, h, _⟩ => (by cases h)⟩
  | ok a =>
    constructor
    · intro h
      exact ⟨a, rfl, h⟩
    · rintro ⟨_, ha, h⟩
      cases ha
      exact h

def npos : UInt64 := 0 - 1

variable {α : Type}

/-- The position of a text in another, from a position on. -/
def findFrom [DecidableEq α] (needle s : List α) (pos : UInt64) : UInt64 :=
  if s.length < pos.toNat then npos
  else
    match find needle (s.drop pos.toNat) with
    | some i => UInt64.ofNat (pos.toNat + i)
    | none => npos

/-- At most `n` of a text, from a position on. -/
def substr (s : List α) (pos n : UInt64) : Except Thrown (List α) :=
  if s.length < pos.toNat then .error .outOfRange else .ok ((s.drop pos.toNat).take n.toNat)

variable {needle s : List α} {pos : UInt64}

theorem toNat_ofNat_of_le {i : ℕ} (h : i ≤ s.length) (hs : s.length < 2 ^ 63) : (UInt64.ofNat i).toNat = i :=
  UInt64.toNat_ofNat_of_lt' (Nat.lt_trans (Nat.lt_of_le_of_lt h hs) (by decide))

theorem substr_of_le (h : pos.toNat ≤ s.length) (n : UInt64) :
    substr s pos n = .ok ((s.drop pos.toNat).take n.toNat) :=
  if_neg (Nat.not_lt.mpr h)

/-- What is cut from a position on. -/
theorem substr_npos (h : pos.toNat ≤ s.length) (hs : s.length < 2 ^ 63) :
    substr s pos npos = .ok (s.drop pos.toNat) := by
  have hn : npos.toNat = 2 ^ 64 - 1 := by decide
  rw [substr_of_le h, List.take_of_length_le]
  rw [List.length_drop]
  omega

variable [DecidableEq α]

/-- What is cut up to what is found behind the same position, or to the end. -/
theorem substr_findFrom (hn : needle ≠ []) (h : pos.toNat ≤ s.length) (hs : s.length < 2 ^ 63) :
    substr s pos (findFrom needle s pos - pos) = .ok (upTo needle (s.drop pos.toNat)) := by
  rw [substr_of_le h]
  unfold findFrom
  rw [if_neg (Nat.not_lt.mpr h)]
  cases hf : find needle (s.drop pos.toNat) with
  | none =>
    have hnpos : npos.toNat = 2 ^ 64 - 1 := by decide
    have hlen : (s.drop pos.toNat).length ≤ (npos - pos).toNat := by
      rw [List.length_drop, UInt64.toNat_sub_of_le _ _ (UInt64.le_iff_toNat_le.mpr (by omega))]
      omega
    rw [upTo, hf]
    exact congrArg _ (List.take_of_length_le hlen)
  | some i =>
    have hi := length_of_find hn hf
    rw [List.length_drop] at hi
    have hsum : (UInt64.ofNat (pos.toNat + i)).toNat = pos.toNat + i := toNat_ofNat_of_le (s := s) (by omega) hs
    have hsub : (UInt64.ofNat (pos.toNat + i) - pos).toNat = i := by
      rw [UInt64.toNat_sub_of_le _ _ (UInt64.le_iff_toNat_le.mpr (by omega)), hsum]
      omega
    rw [upTo_eq_take hf]
    exact congrArg _ (congrArg (List.take · _) hsub)

/-- What is cut up to what is found first, or to the end. -/
theorem substr_find (hn : needle ≠ []) (hs : s.length < 2 ^ 63) :
    substr s 0 (findFrom needle s 0) = .ok (upTo needle s) := by
  have h : substr s 0 (findFrom needle s 0 - 0) = .ok (upTo needle s) := substr_findFrom hn (Nat.zero_le s.length) hs
  rwa [UInt64.sub_zero] at h

theorem findFrom_of_some {i : ℕ} (h : find needle s = some i) : findFrom needle s 0 = UInt64.ofNat i := by
  unfold findFrom
  rw [UInt64.toNat_zero, if_neg (Nat.not_lt_zero _), List.drop_zero, h]
  exact congrArg UInt64.ofNat (Nat.zero_add i)

theorem findFrom_of_none (h : find needle s = none) : findFrom needle s 0 = npos := by
  unfold findFrom
  rw [UInt64.toNat_zero, if_neg (Nat.not_lt_zero _), List.drop_zero, h]

theorem findFrom_eq_npos_iff (hn : needle ≠ []) (hs : s.length < 2 ^ 63) :
    findFrom needle s 0 = npos ↔ find needle s = none := by
  constructor
  · intro h
    cases hf : find needle s with
    | none => rfl
    | some i =>
      have hi := length_of_find hn hf
      have hnat := toNat_ofNat_of_le (s := s) (i := i) (by omega) hs
      have hnpos : npos.toNat = 2 ^ 64 - 1 := by decide
      rw [findFrom_of_some hf] at h
      rw [h, hnpos] at hnat
      omega
  · exact findFrom_of_none

end Cut
end Amind
