/-
# Pages of a list

A page of a list is cut out by a loop over machine integers: its first index is a
product that wraps around, and so does the index behind its last. An index below
zero is one behind the end of every list.

`safe_loop_iff` says when the loop stays in the list, and `pages_iff` when the first
pages are what the list begins with: each of them is taken from where it begins to
where it ends, or lies behind the end of the list while the loop is not entered.
-/
import Amind.Lib.Checked
import Mathlib.Algebra.Order.Ring.Int
import Mathlib.Data.List.TakeDrop

namespace Amind
namespace Paging

open Checked

/-- An `int` of 32 bits. -/
def wrap (x : ℤ) : ℤ := (x + 2 ^ 31) % 2 ^ 32 - 2 ^ 31

variable {α : Type}

def index (items : List α) (i : ℤ) : Checked Empty α :=
  if i < 0 then .error .outside
  else
    match items[i.toNat]? with
    | some a => .ok a
    | none => .error .outside

/-- The items from one index up to another. -/
def loop (items : List α) (last i : ℤ) : Checked Empty (List α) :=
  if i < last then do
    let a ← index items i
    let rest ← loop items last (i + 1)
    .ok (a :: rest)
  else .ok []
termination_by (last - i).toNat

/-- The first index of a page. -/
def offset (page perPage : ℤ) : ℤ := wrap (wrap (page - 1) * perPage)

/-- Where the loop ends that counts with an `int`. -/
def intEnd (n : ℕ) (page perPage : ℤ) : ℤ := min (wrap n) (wrap (offset page perPage + perPage))

/-- A page, by a loop that counts with an `int`. -/
def intPage (items : List α) (page perPage : ℤ) : Checked Empty (List α) :=
  loop items (intEnd items.length page perPage) (offset page perPage)

/-- The first index as a `size_t`. -/
def sizeStart (page perPage : ℤ) : ℤ := offset page perPage % 2 ^ 64

/-- Where the loop ends that counts with a `size_t`. -/
def sizeEnd (n : ℕ) (page perPage : ℤ) : ℤ := min ((sizeStart page perPage + perPage % 2 ^ 64) % 2 ^ 64) n

/-- A page, by a loop that counts with a `size_t`. -/
def sizePage (items : List α) (page perPage : ℤ) : Checked Empty (List α) :=
  loop items (sizeEnd items.length page perPage) (sizeStart page perPage)

/-- The items of a page. -/
def slice (items : List α) (page perPage : ℕ) : List α := (items.drop ((page - 1) * perPage)).take perPage

/-- The first pages, one after the other. -/
def collect (pageOf : ℤ → Checked Empty (List α)) : ℕ → Checked Empty (List α)
  | 0 => .ok []
  | p + 1 => do
    let front ← collect pageOf p
    let last ← pageOf (p + 1 : ℕ)
    .ok (front ++ last)

/-- The page lies behind the end of the list and the loop is not entered, or the
loop takes what the page has. -/
def Covers (n offset perPage first last : ℤ) : Prop :=
  n ≤ offset ∧ last ≤ first ∨ first = offset ∧ last = min n (offset + perPage)

/-! ### The loop -/

variable {items : List α} {first last : ℤ}

theorem index_of_lt {i : ℤ} (hi : 0 ≤ i) (h : i < items.length) :
    ∃ a, index items i = .ok a ∧ items[i.toNat]? = some a := by
  have hlt : i.toNat < items.length := by omega
  refine ⟨items[i.toNat], ?_, List.getElem?_eq_getElem hlt⟩
  rw [index, if_neg (by omega), List.getElem?_eq_getElem hlt]

/-- Inside of the list the loop takes what is there. -/
theorem loop_eq {i : ℤ} (hlast : last ≤ items.length) (hi : 0 ≤ i) :
    loop items last i = .ok ((items.take last.toNat).drop i.toNat) := by
  rw [loop]
  by_cases h : i < last
  · obtain ⟨a, ha, hget⟩ : ∃ a, index items i = .ok a ∧ items[i.toNat]? = some a := index_of_lt hi (by omega)
    have ih := loop_eq (i := i + 1) hlast (by omega)
    have hsplit : (items.take last.toNat).drop i.toNat = a :: (items.take last.toNat).drop (i + 1).toNat := by
      have hlt : i.toNat < (items.take last.toNat).length := by
        rw [List.length_take]
        omega
      have htake : (items.take last.toNat)[i.toNat] = a := by
        have hsome := List.getElem?_eq_getElem hlt
        rw [List.getElem?_take_of_lt (by omega), hget] at hsome
        exact (Option.some.inj hsome).symm
      rw [List.drop_eq_getElem_cons hlt, htake, show (i + 1).toNat = i.toNat + 1 by omega]
    rw [if_pos h, ha, ih, hsplit]
    rfl
  · rw [if_neg h, List.drop_of_length_le]
    rw [List.length_take]
    omega
termination_by (last - i).toNat

/-- The loop stays in the list unless it is entered below zero. -/
theorem safe_loop_iff {i : ℤ} (hlast : last ≤ items.length) : Safe (loop items last i) ↔ 0 ≤ i ∨ last ≤ i := by
  by_cases hi : 0 ≤ i
  · rw [loop_eq hlast hi]
    exact iff_of_true trivial (.inl hi)
  · rw [loop]
    by_cases h : i < last
    · have hindex : index items i = .error .outside := if_pos (by omega)
      rw [if_pos h, hindex]
      exact iff_of_false id (by omega)
    · rw [if_neg h]
      exact iff_of_true trivial (.inr (by omega))

/-- What is entered is left with something, or not at all. -/
theorem loop_ne_nil {i : ℤ} (h : i < last) : loop items last i ≠ .ok [] := by
  rw [loop, if_pos h]
  cases index items i with
  | error e => exact fun heq => by cases heq
  | ok a =>
    cases hrest : loop items last (i + 1) with
    | error e =>
      intro heq
      rw [ok_bind, error_bind] at heq
      cases heq
    | ok rest =>
      intro heq
      rw [ok_bind, ok_bind] at heq
      cases heq

/-- **When a loop cuts out a page**, if it begins in the list where the page does. -/
theorem loop_eq_slice_iff {o n : ℕ} (hlast : last ≤ items.length) (hn : 0 < n)
    (hfirst : o < items.length → first = o) :
    loop items last first = .ok ((items.drop o).take n) ↔ Covers items.length o n first last := by
  unfold Covers
  rcases Nat.lt_or_ge o items.length with ho | ho
  · rw [hfirst ho, loop_eq hlast (by omega)]
    constructor
    · intro h
      have hlen := congrArg List.length (Except.ok.inj h)
      rw [List.length_drop, List.length_take, List.length_take, List.length_drop] at hlen
      right
      omega
    · rintro (h | ⟨-, h⟩)
      · omega
      · have hmin : last.toNat = min items.length (o + n) := by omega
        rw [show (o : ℤ).toNat = o from rfl, hmin, List.drop_take]
        refine congrArg _ ?_
        rcases Nat.le_total (o + n) items.length with hle | hle
        · rw [Nat.min_eq_right hle, Nat.add_sub_cancel_left]
        · have hall : (items.drop o).length ≤ items.length - o := Nat.le_of_eq List.length_drop
          rw [Nat.min_eq_left hle, List.take_of_length_le hall, List.take_of_length_le (by omega)]
  · rw [List.drop_of_length_le ho, List.take_nil]
    constructor
    · intro h
      exact .inl ⟨by omega, Int.not_lt.mp fun hlt => loop_ne_nil hlt h⟩
    · rintro h
      rw [loop, if_neg (by omega)]

/-! ### Pages one after the other -/

variable {pageOf : ℤ → Checked Empty (List α)} {perPage : ℕ}

theorem take_succ_mul (items : List α) (p perPage : ℕ) :
    items.take ((p + 1) * perPage) = items.take (p * perPage) ++ slice items (p + 1) perPage := by
  rw [slice, Nat.add_sub_cancel, Nat.succ_mul, List.take_add]

/-- The first pages are what the list begins with if and only if each is its part of
it. -/
theorem collect_iff {m : ℕ} : (∀ p ≤ m, collect pageOf p = .ok (items.take (p * perPage))) ↔
    ∀ k, 1 ≤ k → k ≤ m → pageOf k = .ok (slice items k perPage) := by
  constructor
  · intro h k hk hm
    obtain ⟨p, rfl⟩ : ∃ p, k = p + 1 := ⟨k - 1, by omega⟩
    have hnext := h (p + 1) hm
    rw [collect, h p (by omega), ok_bind] at hnext
    cases hpage : pageOf (p + 1 : ℕ) with
    | error e =>
      rw [hpage, error_bind] at hnext
      cases hnext
    | ok last =>
      rw [hpage, ok_bind, take_succ_mul] at hnext
      exact congrArg _ (List.append_cancel_left (Except.ok.inj hnext))
  · intro h p
    induction p with
    | zero => exact fun _ => by rw [collect, Nat.zero_mul, List.take_zero]
    | succ p ih =>
      intro hp
      rw [collect, ih (by omega), ok_bind, h (p + 1) (by omega) hp, ok_bind, take_succ_mul]

/-! ### Both ways to count -/

theorem wrap_of_lt {x : ℤ} (h₁ : -2 ^ 31 ≤ x) (h₂ : x < 2 ^ 31) : wrap x = x := by
  unfold wrap
  omega

theorem wrap_le {x : ℤ} (h : -2 ^ 31 ≤ x) : wrap x ≤ x := by
  unfold wrap
  omega

theorem intEnd_le (n : ℕ) (page perPage : ℤ) : intEnd n page perPage ≤ n :=
  Int.le_trans (Int.min_le_left _ _) (wrap_le (by omega))

theorem sizeEnd_le (n : ℕ) (page perPage : ℤ) : sizeEnd n page perPage ≤ n := Int.min_le_right _ _

/-- The first index of a page, where nothing wraps. -/
theorem offset_eq {k : ℕ} (hk : 1 ≤ k) (hpage : k < 2 ^ 31) (h : (k - 1) * perPage < 2 ^ 31) :
    offset k perPage = ((k - 1) * perPage : ℕ) := by
  have hcast : ((k : ℤ) - 1) = ((k - 1 : ℕ) : ℤ) := by omega
  unfold offset
  rw [wrap_of_lt (x := (k : ℤ) - 1) (by omega) (by omega), hcast, ← Int.natCast_mul, wrap_of_lt (by omega) (by omega)]

/-- The page an `int` loop cuts out stays in the list. -/
def StaysIn (n : ℕ) (page perPage : ℤ) : Prop := 0 ≤ offset page perPage ∨ intEnd n page perPage ≤ offset page perPage

instance (n : ℕ) (page perPage : ℤ) : Decidable (StaysIn n page perPage) := inferInstanceAs (Decidable (_ ∨ _))

/-- What is asked of the numbers of a page for the `int` loop to cut it out. -/
def IntFits (n k perPage : ℕ) : Prop :=
  Covers n ((k - 1) * perPage : ℕ) perPage (offset k perPage) (intEnd n k perPage)

/-- What is asked of the numbers of a page for the `size_t` loop to cut it out. -/
def SizeFits (n k perPage : ℕ) : Prop :=
  Covers n ((k - 1) * perPage : ℕ) perPage (sizeStart k perPage) (sizeEnd n k perPage)

/-- Where nothing wraps, the page is cut out. -/
theorem intFits_of_lt {n k : ℕ} (hn : n < 2 ^ 31) (hk : 1 ≤ k) (hpage : k < 2 ^ 31)
    (h : (k - 1) * perPage + perPage < 2 ^ 31) : IntFits n k perPage := by
  have hoffset : offset k perPage = ((k - 1) * perPage : ℕ) := offset_eq hk hpage (by omega)
  refine .inr ⟨hoffset, ?_⟩
  unfold intEnd
  rw [hoffset, wrap_of_lt (x := (n : ℤ)) (by omega) (by omega), wrap_of_lt (by omega) (by omega)]

theorem safe_intPage_iff {page perPage : ℤ} :
    Safe (intPage items page perPage) ↔ StaysIn items.length page perPage :=
  safe_loop_iff (intEnd_le _ _ _)

theorem intPage_of_fits {k : ℕ} (hn : 0 < perPage) (h : IntFits items.length k perPage) :
    intPage items k perPage = .ok (slice items k perPage) := by
  refine (loop_eq_slice_iff (intEnd_le _ _ _) hn fun hin => ?_).mpr h
  rcases h with h | h
  · omega
  · exact h.1

theorem intPage_returns (items : List α) {page perPage : ℤ} (h : StaysIn items.length page perPage) :
    ∃ records, intPage items page perPage = .ok records := by
  have hsafe := safe_intPage_iff.mpr h
  cases hpage : intPage items page perPage with
  | ok records => exact ⟨records, rfl⟩
  | error e =>
    rw [hpage] at hsafe
    cases e with
    | thrown e => cases e
    | outside => exact absurd hsafe not_safe_outside
    | divByZero => exact absurd hsafe not_safe_divByZero

/-- A loop over a `size_t` is never entered behind the end. -/
theorem safe_sizePage (items : List α) (page perPage : ℤ) : Safe (sizePage items page perPage) := by
  refine (safe_loop_iff (sizeEnd_le _ _ _)).mpr (.inl ?_)
  unfold sizeStart
  omega

/-- Pages as long as the items between the indexes that an `int` has. -/
theorem exists_page {o : ℕ} (hn : 0 < perPage) (ho : 2 ^ 31 ≤ o * perPage) :
    ∃ j ≤ o, j * perPage < 2 ^ 31 ∧ 2 ^ 31 ≤ j * perPage + perPage := by
  refine ⟨(2 ^ 31 - 1) / perPage, ?_, ?_, ?_⟩
  · by_contra hlt
    have hmul := Nat.mul_le_mul_right perPage (Nat.succ_le_of_lt (Nat.lt_of_not_le hlt))
    have hdiv := Nat.div_mul_le_self (2 ^ 31 - 1) perPage
    rw [Nat.succ_mul] at hmul
    omega
  · have hdiv := Nat.div_mul_le_self (2 ^ 31 - 1) perPage
    omega
  · have hdiv := Nat.lt_div_mul_add hn (a := 2 ^ 31 - 1)
    omega

/-- **Pages by a loop that counts with an `int`.** -/
theorem intPages_iff (hn : 0 < perPage) (hperPage : perPage < 2 ^ 31) {m : ℕ} (hm : m < 2 ^ 31) :
    (∀ p ≤ m, collect (intPage items · perPage) p = .ok (items.take (p * perPage))) ↔
      ∀ k, 1 ≤ k → k ≤ m → IntFits items.length k perPage := by
  have hiff : ∀ k, ((k - 1) * perPage < items.length → offset k perPage = ((k - 1) * perPage : ℕ)) →
      (intPage items k perPage = .ok (slice items k perPage) ↔ IntFits items.length k perPage) :=
    fun k hfirst => loop_eq_slice_iff (intEnd_le _ _ _) hn hfirst
  rw [collect_iff]
  constructor
  · intro h k hk hkm
    refine (hiff k fun hin => ?_).mp (h k hk hkm)
    by_contra hwraps
    -- a page before it would end where no `int` is, and is not cut out
    have hlarge : 2 ^ 31 ≤ (k - 1) * perPage := by
      by_contra hsmall
      exact hwraps (offset_eq hk (by omega) (by omega))
    obtain ⟨j, hj, hlow, hhigh⟩ := exists_page hn hlarge
    have hle := Nat.mul_le_mul_right perPage hj
    have hoffset : offset (j + 1 : ℕ) perPage = ((j + 1 - 1) * perPage : ℕ) := offset_eq (by omega) (by omega) hlow
    have hfits := (hiff (j + 1) fun _ => hoffset).mp (h (j + 1) (by omega) (by omega))
    unfold IntFits Covers at hfits
    rw [hoffset, Nat.add_sub_cancel] at hfits
    rcases hfits with hfits | ⟨-, hend⟩
    · omega
    · have hmin : intEnd items.length (j + 1 : ℕ) perPage ≤ wrap (j * perPage + perPage : ℕ) := by
        unfold intEnd
        rw [hoffset, Nat.add_sub_cancel]
        exact Int.min_le_right _ _
      unfold wrap at hmin
      omega
  · intro h k hk hkm
    exact intPage_of_fits hn (h k hk hkm)

/-- **Pages by a loop that counts with a `size_t`**, of a list that an `int` can
count. -/
theorem sizePages_iff (hn : 0 < perPage) {m : ℕ} (hm : m < 2 ^ 31) (hlen : items.length ≤ 2 ^ 31) :
    (∀ p ≤ m, collect (sizePage items · perPage) p = .ok (items.take (p * perPage))) ↔
      ∀ k, 1 ≤ k → k ≤ m → SizeFits items.length k perPage := by
  rw [collect_iff]
  refine forall_congr' fun k => forall_congr' fun hk => forall_congr' fun hkm => ?_
  refine loop_eq_slice_iff (sizeEnd_le _ _ _) hn fun hin => ?_
  unfold sizeStart
  rw [offset_eq hk (by omega) (by omega)]
  omega

end Paging
end Amind
