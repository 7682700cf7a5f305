/-
# Contests of ranks

A relation of who wins, each step of which goes from a rank to a lower one, or along
another relation. A step along it may go up. A cycle that has no such step stays
at one rank, and so it is a cycle of the other relation (`inverted_of_cycle`). If
there is none, there is somebody among finitely many against whom nobody wins
(`exists_undefeated`).
-/
import Mathlib.Data.Fintype.Card
import Mathlib.Data.Set.Finite.List
import Mathlib.Logic.Relation

namespace Amind
namespace Ranked

open Relation

variable {α β : Type*} [Preorder β] {wins along : α → α → Prop} {rank : α → β} {a b : α}

/-- A step to a higher rank on the way from one to another. -/
def Inverted (wins : α → α → Prop) (rank : α → β) (a b : α) : Prop :=
  ∃ c p, ReflTransGen wins a c ∧ wins c p ∧ ¬ rank p ≤ rank c ∧ ReflTransGen wins p b

theorem Inverted.tail {c : α} (h : Inverted wins rank a b) (hbc : wins b c) : Inverted wins rank a c := by
  obtain ⟨x, y, hax, hxy, hrank, hyb⟩ := h
  exact ⟨x, y, hax, hxy, hrank, hyb.tail hbc⟩

/-- What a way with no step up is: it goes down, or all along the other relation. -/
theorem way (hwins : ∀ a b, wins a b → along a b ∨ rank b < rank a) (h : TransGen wins a b) :
    Inverted wins rank a b ∨ rank b < rank a ∨ TransGen along a b ∧ rank b ≤ rank a := by
  -- one step
  have hstep : ∀ {x y}, wins x y → ¬ rank y ≤ rank x ∨ rank y < rank x ∨ along x y ∧ rank y ≤ rank x := by
    intro x y hxy
    by_cases hle : rank y ≤ rank x
    · rcases hwins x y hxy with halong | hlt
      · exact .inr (.inr ⟨halong, hle⟩)
      · exact .inr (.inl hlt)
    · exact .inl hle
  induction h with
  | single hab =>
    rcases hstep hab with hup | hlt | ⟨halong, hle⟩
    · exact .inl ⟨_, _, .refl, hab, hup, .refl⟩
    · exact .inr (.inl hlt)
    · exact .inr (.inr ⟨.single halong, hle⟩)
  | tail hway hbc ih =>
    rcases hstep hbc with hup | hlt | ⟨halong, hle⟩
    · exact .inl ⟨_, _, hway.to_reflTransGen, hbc, hup, .refl⟩
    · rcases ih with hinv | hdown | ⟨-, hlevel⟩
      · exact .inl (hinv.tail hbc)
      · exact .inr (.inl (hlt.trans hdown))
      · exact .inr (.inl (hlt.trans_le hlevel))
    · rcases ih with hinv | hdown | ⟨hall, hlevel⟩
      · exact .inl (hinv.tail hbc)
      · exact .inr (.inl (hle.trans_lt hdown))
      · exact .inr (.inr ⟨hall.tail halong, hle.trans hlevel⟩)

/-- **A cycle has a step up**, if the other relation has no cycles. -/
theorem inverted_of_cycle (hwins : ∀ a b, wins a b → along a b ∨ rank b < rank a)
    (halong : ∀ a, ¬ TransGen along a a) (h : TransGen wins a a) : Inverted wins rank a a := by
  rcases way hwins h with hinv | hlt | ⟨hall, -⟩
  · exact hinv
  · exact absurd hlt (lt_irrefl _)
  · exact absurd hall (halong a)

omit [Preorder β] in
/-- Without cycles, somebody of finitely many is undefeated. -/
theorem exists_undefeated (hwins : ∀ a, ¬ TransGen wins a a) {s : List α} (hs : s ≠ []) :
    ∃ a ∈ s, ∀ b ∈ s, ¬ wins b a := by
  let beats : {a // a ∈ s} → {a // a ∈ s} → Prop := fun a b => TransGen wins a.val b.val
  have htrans : IsTrans _ beats := ⟨fun _ _ _ => TransGen.trans⟩
  have hirrefl : Std.Irrefl beats := ⟨fun a => hwins a.val⟩
  have hfinite : Finite {a // a ∈ s} := s.finite_toSet.to_subtype
  obtain ⟨x, hx⟩ := List.exists_mem_of_ne_nil s hs
  obtain ⟨a, -, hmin⟩ := (Finite.wellFounded_of_trans_of_irrefl beats).has_min Set.univ ⟨⟨x, hx⟩, trivial⟩
  exact ⟨a.val, a.property, fun b hb hba => hmin ⟨b, hb⟩ trivial (.single hba)⟩

end Ranked
end Amind
