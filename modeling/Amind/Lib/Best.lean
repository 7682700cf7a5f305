/-
# The best of a list

A scan of a list for the best value keeps what it found first unless something is
better: `scan`. What it ends with is what it started with, if nothing in the list is
better than that, or one of the list (`scan_cases`). In a strict order nothing in the
list is better (`not_lt_of_mem`).
-/
import Mathlib.Order.Defs.Unbundled

namespace Amind
namespace Best

variable {α β V : Type*} [LT V] [DecidableRel fun a b : V => a < b] (value : α → V) (name : α → β)

/-- Keep the best value with its name, the first of equals. -/
def scan (l : List α) (start : V × β) : V × β :=
  l.foldl (fun best a => if best.1 < value a then (value a, name a) else best) start

theorem scan_cons (a : α) (l : List α) (start : V × β) :
    scan value name (a :: l) start = scan value name l (if start.1 < value a then (value a, name a) else start) := rfl

/-- The scan ends with what it started with, or with one of the list. -/
theorem scan_cases : ∀ (l : List α) (start : V × β),
    scan value name l start = start ∧ (∀ a ∈ l, ¬ start.1 < value a) ∨
      ∃ a ∈ l, scan value name l start = (value a, name a)
  | [], _ => .inl ⟨rfl, fun _ h => by cases h⟩
  | a :: l, start => by
    rw [scan_cons]
    by_cases ha : start.1 < value a
    · rw [if_pos ha]
      rcases scan_cases l (value a, name a) with ⟨hs, -⟩ | ⟨b, hb, hs⟩
      · exact .inr ⟨a, List.mem_cons_self, hs⟩
      · exact .inr ⟨b, List.mem_cons_of_mem a hb, hs⟩
    · rw [if_neg ha]
      rcases scan_cases l start with ⟨hs, hl⟩ | ⟨b, hb, hs⟩
      · exact .inl ⟨hs, List.forall_mem_cons.mpr ⟨ha, hl⟩⟩
      · exact .inr ⟨b, List.mem_cons_of_mem a hb, hs⟩

/-- Nothing is found if nothing is better than the start. -/
theorem scan_eq_start : ∀ {l : List α} {start : V × β}, (∀ a ∈ l, ¬ start.1 < value a) → scan value name l start = start
  | [], _, _ => rfl
  | a :: l, start, h => by
    rw [scan_cons, if_neg (h a List.mem_cons_self)]
    exact scan_eq_start fun b hb => h b (List.mem_cons_of_mem a hb)

section Order

variable [IsStrictOrder V fun a b => a < b]

/-- What is not below the best so far is not below the best of all. -/
theorem not_lt_of_not_lt : ∀ (l : List α) (start : V × β) {v : V}, ¬ start.1 < v → ¬ (scan value name l start).1 < v
  | [], _, _, h => h
  | a :: l, start, v, h => by
    rw [scan_cons]
    refine not_lt_of_not_lt l _ ?_
    split
    · rename_i ha
      exact fun hv => h (Trans.trans ha hv)
    · exact h

/-- Nothing in the list is better than the best. -/
theorem not_lt_of_mem : ∀ (l : List α) (start : V × β), ∀ a ∈ l, ¬ (scan value name l start).1 < value a
  | b :: l, start, a, ha => by
    rw [scan_cons]
    rcases List.mem_cons.mp ha with rfl | ha
    · refine not_lt_of_not_lt value name l _ ?_
      by_cases hlt : start.1 < value a
      · rw [if_pos hlt]
        exact irrefl_of (fun a b : V => a < b) (value a)
      · rw [if_neg hlt]
        exact hlt
    · exact not_lt_of_mem l _ a ha

end Order

end Best
end Amind
