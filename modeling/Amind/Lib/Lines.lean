/-
# Texts as lines

`lines` cuts a text at its line ends, as reading it line by line does: a text
that ends with one has no empty line after it. Lines that are written each with
its end come back (`lines_unlines`). `trim` takes the blanks off both ends.
-/
import Mathlib.Data.List.DropRight

namespace Amind
namespace Lines

/-- Cut at every line end. -/
def lines {α : Type} [DecidableEq α] (eol : α) (s : List α) : List (List α) :=
  let ls := s.splitOn eol
  if ls.getLast? = some [] then ls.dropLast else ls

/-- Each line with its end. -/
def unlines {α : Type} (eol : α) (ls : List (List α)) : List α := ls.flatMap (· ++ [eol])

section Lines

variable {α : Type} [DecidableEq α] {eol : α}

theorem splitOn_unlines : ∀ {ls : List (List α)}, (∀ l ∈ ls, eol ∉ l) → (unlines eol ls).splitOn eol = ls ++ [[]]
  | [], _ => by simp [unlines]
  | l :: ls, h => by
    have ih : (unlines eol ls).splitOn eol = ls ++ [[]] := splitOn_unlines fun m hm => h m (List.mem_cons_of_mem _ hm)
    have hcons : unlines eol (l :: ls) = l ++ eol :: unlines eol ls := by simp [unlines]
    rw [hcons, List.splitOn_append_cons_self, List.splitOn_eq_singleton (h l List.mem_cons_self), ih]
    rfl

theorem lines_unlines {ls : List (List α)} (h : ∀ l ∈ ls, eol ∉ l) : lines eol (unlines eol ls) = ls := by
  rw [lines, splitOn_unlines h]
  simp

theorem not_mem_of_mem_splitOn : ∀ {s l : List α}, l ∈ s.splitOn eol → eol ∉ l
  | [], l, h => by
    rw [List.splitOn_nil, List.mem_singleton] at h
    simp [h]
  | x :: s, l, h => by
    rw [List.splitOn_cons_eq_if_modifyHead] at h
    split at h
    · rcases List.mem_cons.mp h with rfl | h
      · simp
      · exact not_mem_of_mem_splitOn h
    · next hx =>
      cases hs : s.splitOn eol with
      | nil => exact absurd hs (List.splitOn_ne_nil _ _)
      | cons m ms =>
        rw [hs, List.modifyHead_cons] at h
        have hm : ∀ n ∈ m :: ms, eol ∉ n := fun n hn => not_mem_of_mem_splitOn (hs ▸ hn)
        rcases List.mem_cons.mp h with rfl | h
        · have hne : eol ≠ x := by
            rintro rfl
            simp at hx
          simp [hne, hm m List.mem_cons_self]
        · exact hm l (List.mem_cons_of_mem _ h)

theorem not_mem_of_mem_lines {s l : List α} (h : l ∈ lines eol s) : eol ∉ l := by
  unfold lines at h
  dsimp only at h
  split at h
  · exact not_mem_of_mem_splitOn (List.dropLast_subset _ h)
  · exact not_mem_of_mem_splitOn h

end Lines

section Trim

variable {α : Type} {blank : α → Bool}

/-- Without the blanks at both ends. -/
def trim (blank : α → Bool) (s : List α) : List α := (s.dropWhile blank).rdropWhile blank

/-- There is no blank at an end. -/
def Trimmed (blank : α → Bool) (s : List α) : Prop := trim blank s = s

theorem trim_cons {b : α} (hb : blank b = true) (s : List α) : trim blank (b :: s) = trim blank s := by
  rw [trim, List.dropWhile_cons_of_pos hb, trim]

theorem trim_concat {b : α} (hb : blank b = true) (s : List α) : trim blank (s ++ [b]) = trim blank s := by
  unfold trim
  by_cases h : ∀ x ∈ s, blank x = true
  · have hall : ∀ x ∈ s ++ [b], blank x = true := by
      intro x hx
      rcases List.mem_append.mp hx with hx | hx
      · exact h x hx
      · rwa [List.mem_singleton.mp hx]
    rw [List.dropWhile_eq_nil_iff.mpr hall, List.dropWhile_eq_nil_iff.mpr h]
  · have hne : s.dropWhile blank ≠ [] := fun hnil => h (List.dropWhile_eq_nil_iff.mp hnil)
    rw [List.dropWhile_append, if_neg (by simpa using hne), List.rdropWhile_concat_pos _ _ _ hb]

theorem trimmed_trim (s : List α) : Trimmed blank (trim blank s) := by
  have hstart : (trim blank s).dropWhile blank = trim blank s := by
    cases hs : trim blank s with
    | nil => rfl
    | cons b rest =>
      -- it starts as the text does without its first blanks
      obtain ⟨t, ht⟩ : b :: rest <+: s.dropWhile blank := hs ▸ List.rdropWhile_prefix _ _
      have hb : blank b = false := by
        have := List.head?_dropWhile_not blank s
        rw [← ht] at this
        simpa using this
      rw [List.dropWhile_cons_of_neg (by simp [hb])]
  have hend : (trim blank s).rdropWhile blank = trim blank s := List.rdropWhile_idempotent _ _
  unfold Trimmed
  rw [trim, hstart, hend]

theorem trim_sublist (s : List α) : (trim blank s).Sublist s :=
  (List.rdropWhile_prefix _ _).sublist.trans (List.dropWhile_sublist _)

end Trim

end Lines
end Amind
