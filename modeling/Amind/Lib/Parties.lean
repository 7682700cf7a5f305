/-
# Parties that go on one at a time

The states of some parties are a list; when a party goes on, its place is set to another
state. What is counted over the parties changes by what that one counts for.
-/
import Mathlib.Algebra.BigOperators.Group.List.Basic
import Mathlib.Algebra.Ring.Nat

namespace Amind
namespace Parties

variable {α β : Type} {x : α}

/-- A sum over the parties, when one of them goes on. -/
theorem sum_set (w : α → ℕ) : ∀ {l : List α} {i : ℕ}, l[i]? = some x → ∀ y,
    ((l.set i y).map w).sum + w x = (l.map w).sum + w y
  | [], _, h, _ => by cases h
  | a :: l, 0, h, y => by
    obtain rfl := Option.some.inj h
    rw [List.set_cons_zero, List.map_cons, List.map_cons, List.sum_cons, List.sum_cons]
    omega
  | a :: l, i + 1, h, y => by
    have ih := sum_set w (l := l) (i := i) h y
    rw [List.set_cons_succ, List.map_cons, List.map_cons, List.sum_cons, List.sum_cons]
    omega

/-- How many have a property, when one of them goes on. -/
theorem countP_set (p : α → Bool) {l : List α} {i : ℕ} (h : l[i]? = some x) (y : α) :
    (l.set i y).countP p + (p x).toNat = l.countP p + (p y).toNat := by
  have hsum : ∀ l : List α, (l.map fun a => (p a).toNat).sum = l.countP p := fun l => by
    induction l with
    | nil => rfl
    | cons a l ih =>
      rw [List.map_cons, List.sum_cons, List.countP_cons, ih, Nat.add_comm]
      cases p a <;> rfl
  have hset := sum_set (fun a => (p a).toNat) h y
  rwa [hsum, hsum] at hset

/-- What they have in their hands, when one of them goes on. -/
theorem perm_set (f : α → List β) : ∀ {l : List α} {i : ℕ}, l[i]? = some x → ∀ y,
    ((l.set i y).flatMap f ++ f x).Perm (l.flatMap f ++ f y)
  | [], _, h, _ => by cases h
  | a :: l, 0, h, y => by
    obtain rfl := Option.some.inj h
    rw [List.set_cons_zero, List.flatMap_cons, List.flatMap_cons]
    calc (f y ++ l.flatMap f ++ f a).Perm (f a ++ (f y ++ l.flatMap f)) := List.perm_append_comm
      (f a ++ (f y ++ l.flatMap f)).Perm (f a ++ (l.flatMap f ++ f y)) := List.perm_append_comm.append_left _
      _ = f a ++ l.flatMap f ++ f y := (List.append_assoc _ _ _).symm
  | a :: l, i + 1, h, y => by
    have ih := perm_set f (l := l) (i := i) h y
    rw [List.set_cons_succ, List.flatMap_cons, List.flatMap_cons, List.append_assoc, List.append_assoc]
    exact ih.append_left _

end Parties
end Amind
