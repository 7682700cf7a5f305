/-
# What is kept in parts

Items are added to a part until it is full. Then a new part is begun, and of those before
it so many are kept, the newest. What is held is always a suffix of what was added, in
its order, and all of it as long as no part had to go (`Keeps`).
-/
import Mathlib.Data.List.Infix

namespace Amind
namespace Rotation

variable {α : Type}

/-- The part that is added to, and those before it, the newest first. -/
structure Parts (α : Type) where
  current : List α := []
  older : List (List α) := []

namespace Parts

def held (p : Parts α) : List α := p.older.reverse.flatten ++ p.current

variable (full : List α → Prop) [DecidablePred full] (keep : ℕ)

/-- A new part is begun, if the last one is full. -/
def turn (p : Parts α) : Parts α := if full p.current then ⟨[], (p.current :: p.older).take keep⟩ else p

def put (p : Parts α) (a : α) : Parts α := { p with current := p.current ++ [a] }

theorem held_put (p : Parts α) (a : α) : (p.put a).held = p.held ++ [a] := (List.append_assoc _ _ _).symm

end Parts

/-- What is held of all that was added. -/
structure Keeps (full : List α → Prop) (keep : ℕ) (all : List α) (p : Parts α) : Prop where
  suffix : ∃ dropped, all = dropped ++ p.held ∧ (dropped ≠ [] → p.older.length = keep)
  short : p.older.length ≤ keep
  full : ∀ q ∈ p.older, full q

section Keeps

variable {full : List α → Prop} [DecidablePred full] {keep : ℕ} {all : List α} {p : Parts α}

omit [DecidablePred full] in
theorem keeps_empty : Keeps full keep [] {} :=
  ⟨⟨[], rfl, fun h => absurd rfl h⟩, Nat.zero_le _, fun _ hq => absurd hq List.not_mem_nil⟩

omit [DecidablePred full] in
theorem Keeps.put (h : Keeps full keep all p) (a : α) : Keeps full keep (all ++ [a]) (p.put a) := by
  obtain ⟨dropped, hall, hdropped⟩ := h.suffix
  refine ⟨⟨dropped, ?_, hdropped⟩, h.short, h.full⟩
  rw [Parts.held_put, hall, List.append_assoc]

theorem Keeps.turn (h : Keeps full keep all p) : Keeps full keep all (p.turn full keep) := by
  unfold Parts.turn
  split
  · rename_i hfull
    obtain ⟨dropped, hall, hdropped⟩ := h.suffix
    have hlen : (p.current :: p.older).length = p.older.length + 1 := rfl
    refine ⟨⟨dropped ++ ((p.current :: p.older).drop keep).reverse.flatten, ?_, fun hne => ?_⟩, ?_, ?_⟩
    · have hheld : p.held = (p.current :: p.older).reverse.flatten := by simp [Parts.held]
      have hparts : (p.current :: p.older).reverse.flatten = ((p.current :: p.older).drop keep).reverse.flatten ++
          ((p.current :: p.older).take keep).reverse.flatten := by
        rw [← List.flatten_append, ← List.reverse_append, List.take_append_drop]
      rw [hall, hheld, hparts, Parts.held, List.append_nil, List.append_assoc]
    · rw [List.length_take, hlen]
      by_contra hshort
      have hnone : (p.current :: p.older).drop keep = [] := List.drop_eq_nil_of_le (by omega)
      have hdrop : dropped ≠ [] := by
        rintro rfl
        rw [hnone] at hne
        exact hne rfl
      have hkeep := hdropped hdrop
      omega
    · exact List.length_take_le _ _
    · intro q hq
      rcases List.mem_cons.mp (List.mem_of_mem_take hq) with rfl | hq
      · exact hfull
      · exact h.full q hq
  · exact h

end Keeps

end Rotation
end Amind
