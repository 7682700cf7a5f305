/-
# Paths as walks through directories

A directory is the list of names that lead to it from the root. A path is a list
of steps: stay, go up, or go down to a name; from the root one cannot go up.
Where a path leads can be read off its normal form, how often it goes up in all
and the names it goes down then, without walking it (`walk_eq`). `below` is what
is left of a path under the directory it starts from, if it ends below it.
-/
import Mathlib.Data.List.Infix

namespace Amind
namespace Paths

variable {N : Type}

inductive Step (N : Type)
  | stay | up | down (name : N)
  deriving DecidableEq

/-- One step from a directory. -/
def step (dir : List N) : Step N → List N
  | .stay => dir
  | .up => dir.dropLast
  | .down name => dir ++ [name]

/-- Where the steps lead. -/
def walk (dir : List N) (steps : List (Step N)) : List N := steps.foldl step dir

/-- One step more in normal form: a name that is left again is dropped. -/
def normalStep (p : ℕ × List N) : Step N → ℕ × List N
  | .stay => p
  | .up => if p.2 = [] then (p.1 + 1, []) else (p.1, p.2.dropLast)
  | .down name => (p.1, p.2 ++ [name])

/-- The normal form: so many steps up, then down these names. -/
def normal (steps : List (Step N)) : ℕ × List N := steps.foldl normalStep (0, [])

theorem walk_append (dir : List N) (s t : List (Step N)) : walk dir (s ++ t) = walk (walk dir s) t :=
  List.foldl_append

theorem step_normal (dir : List N) (p : ℕ × List N) (s : Step N) :
    step (dir.take (dir.length - p.1) ++ p.2) s =
      dir.take (dir.length - (normalStep p s).1) ++ (normalStep p s).2 := by
  cases s with
  | stay => rfl
  | down name => simp [step, normalStep]
  | up =>
    by_cases h : p.2 = []
    · have hless : dir.length - (p.1 + 1) = dir.length - p.1 - 1 := by omega
      simp only [step, normalStep, h, if_true, List.append_nil, hless]
      rw [List.dropLast_eq_take, List.take_take, List.length_take]
      congr 1
      omega
    · simp [step, normalStep, h, List.dropLast_append_of_ne_nil]

theorem foldl_step_normal (dir : List N) : ∀ (steps : List (Step N)) (p : ℕ × List N),
    steps.foldl step (dir.take (dir.length - p.1) ++ p.2) =
      dir.take (dir.length - (steps.foldl normalStep p).1) ++ (steps.foldl normalStep p).2
  | [], _ => rfl
  | s :: steps, p => by rw [List.foldl_cons, step_normal, foldl_step_normal dir steps, List.foldl_cons]

/-- **Where a path leads**: up as often as its normal form says, then down. -/
theorem walk_eq (dir : List N) (steps : List (Step N)) :
    walk dir steps = dir.take (dir.length - (normal steps).1) ++ (normal steps).2 := by
  have h := foldl_step_normal dir steps (0, [])
  rwa [Nat.sub_zero, List.take_length, List.append_nil] at h

/-- Below the directory, and not the directory itself. -/
def StrictlyBelow (d dir : List N) : Prop := dir <+: d ∧ d ≠ dir

/-- Two directories of which neither is the other or inside it. -/
def Apart (d d' : List N) : Prop := d ≠ d' ∧ ¬ StrictlyBelow d d' ∧ ¬ StrictlyBelow d' d

theorem apart_iff {d d' : List N} : Apart d d' ↔ ¬ d <+: d' ∧ ¬ d' <+: d := by
  unfold Apart StrictlyBelow
  constructor
  · rintro ⟨hne, h, h'⟩
    exact ⟨fun hp => h' ⟨hp, Ne.symm hne⟩, fun hp => h ⟨hp, hne⟩⟩
  · rintro ⟨h, h'⟩
    refine ⟨?_, fun hp => h' hp.1, fun hp => h hp.1⟩
    rintro rfl
    exact h (List.prefix_refl d)

variable [DecidableEq N]

/-- The names under the directory to which a path from it leads: those after it
has come down again where it went up. -/
def below (dir : List N) (steps : List (Step N)) : Option (List N) :=
  let (ups, names) := normal steps
  let back := dir.drop (dir.length - ups)
  if back <+: names then some (names.drop back.length) else none

theorem below_eq_some {dir rest : List N} {steps : List (Step N)} :
    below dir steps = some rest ↔ walk dir steps = dir ++ rest := by
  rw [walk_eq, below]
  generalize normal steps = p
  obtain ⟨ups, names⟩ := p
  dsimp only
  have hdir : dir ++ rest = dir.take (dir.length - ups) ++ (dir.drop (dir.length - ups) ++ rest) := by
    rw [← List.append_assoc, List.take_append_drop]
  rw [hdir, List.append_cancel_left_eq]
  generalize dir.drop (dir.length - ups) = back
  constructor
  · intro h
    split at h
    · next hp =>
      obtain ⟨t, rfl⟩ := hp
      rw [List.drop_left] at h
      rw [Option.some.inj h]
    · cases h
  · rintro rfl
    rw [if_pos (List.prefix_append _ _), List.drop_left]

/-- A path leads strictly below the directory it starts from if it comes down to
some name there. -/
theorem strictlyBelow_iff {dir : List N} {steps : List (Step N)} :
    StrictlyBelow (walk dir steps) dir ↔ ∃ rest, below dir steps = some rest ∧ rest ≠ [] := by
  unfold StrictlyBelow
  constructor
  · rintro ⟨⟨rest, hrest⟩, hne⟩
    refine ⟨rest, below_eq_some.mpr hrest.symm, ?_⟩
    rintro rfl
    exact hne (by rw [← hrest, List.append_nil])
  · rintro ⟨rest, hrest, hne⟩
    rw [below_eq_some.mp hrest]
    exact ⟨List.prefix_append _ _, fun h => hne (List.append_right_eq_self.mp h)⟩

end Paths
end Amind
