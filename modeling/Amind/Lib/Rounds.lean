/-
# Leaving out in rounds

A round is somebody's, and has a list of those it may meet. It meets the first of
them that is not left out yet, and then one of the two is left out: the one met if
it is below, or else the one whose round it is. Whether the one whose round it is
has been left out before is not asked.

`linked` says that whoever is left out is linked to somebody who is not, if nobody
has his round and leaves out another after he was left out himself.
-/
import Mathlib.Logic.Function.Basic
import Mathlib.Logic.Relation
import Amind.Lib.Run

namespace Amind
namespace Rounds

open Run (run Along)
open Relation (ReflTransGen)

variable {α : Type}

/-- Whose round it is, and those it may meet, each with whether it is below. -/
structure Round (α : Type) where
  self : α
  others : List (α × Bool)

/-- The one met in the round. -/
def met (gone : α → Bool) (r : Round α) : Option (α × Bool) := r.others.find? fun o => !gone o.1

/-- Nobody who is left out leaves out another. -/
def Present (gone : α → Bool) (r : Round α) : Prop :=
  gone r.self = true → ∀ o, met gone r = some o → o.2 = false

instance (gone : α → Bool) (r : Round α) : Decidable (Present gone r) :=
  decidable_of_iff (gone r.self = true → (met gone r).all (fun o => !o.2) = true) <| by
    unfold Present
    cases met gone r <;> simp

/-- The one left out in the round. -/
def out (gone : α → Bool) (r : Round α) : Option α := (met gone r).map fun o => if o.2 then o.1 else r.self

variable [DecidableEq α]

/-- Who is left out after the round. -/
def leave (gone : α → Bool) (r : Round α) (a : α) : Bool := gone a || decide (out gone r = some a)

omit [DecidableEq α] in
theorem met_some {gone : α → Bool} {r : Round α} {o : α × Bool} (h : met gone r = some o) :
    o ∈ r.others ∧ gone o.1 = false :=
  ⟨List.mem_of_find?_eq_some h, by simpa using List.find?_some h⟩

theorem leave_eq_false {gone : α → Bool} {r : Round α} {a : α} :
    leave gone r a = false ↔ gone a = false ∧ out gone r ≠ some a := by
  unfold leave
  rw [Bool.or_eq_false_iff, decide_eq_false_iff_not]

/-- Who is left out in such a round is linked to one who is left. -/
theorem linked_leave {R : α → α → Prop} (hsymm : ∀ a b, R a b → R b a) {gone : α → Bool} {r : Round α}
    (hR : ∀ o ∈ r.others, o.1 ≠ r.self ∧ R r.self o.1) (h : Present gone r) {a : α} (ha : out gone r = some a) :
    ∃ b, leave gone r b = false ∧ R a b := by
  obtain ⟨o, hmet, heq⟩ := Option.map_eq_some_iff.mp ha
  obtain ⟨ho, hthere⟩ := met_some hmet
  obtain ⟨hne, hlink⟩ := hR o ho
  have hout : ∀ b, b ≠ a → gone b = false → leave gone r b = false := fun b hb hgone =>
    leave_eq_false.mpr ⟨hgone, fun hc => hb (Option.some.inj (hc.symm.trans ha))⟩
  cases hbelow : o.2 with
  | true =>
    rw [hbelow, if_pos rfl] at heq
    have hself : gone r.self = false := by
      by_contra hgone
      exact Bool.noConfusion (hbelow.symm.trans (h (Bool.not_eq_false _ ▸ hgone) o hmet))
    exact ⟨r.self, hout _ (heq ▸ hne.symm) hself, heq ▸ hsymm _ _ hlink⟩
  | false =>
    rw [hbelow, if_neg Bool.false_ne_true] at heq
    exact ⟨o.1, hout _ (heq ▸ hne) hthere, heq ▸ hlink⟩

/-- **Whoever is left out is linked to one who is left**, if nobody who is left out
leaves out another. -/
theorem linked {R : α → α → Prop} (hsymm : ∀ a b, R a b → R b a) : ∀ {rs : List (Round α)} {gone : α → Bool},
    (∀ r ∈ rs, ∀ o ∈ r.others, o.1 ≠ r.self ∧ R r.self o.1) → Along leave Present gone rs →
    ∀ a, gone a = false → ∃ b, run leave gone rs b = false ∧ ReflTransGen R a b
  | [], _, _, _, a, ha => ⟨a, ha, .refl⟩
  | r :: rs, gone, hR, h, a, ha => by
    have ih := linked hsymm (fun r' hr' => hR r' (List.mem_cons_of_mem r hr')) h.2
    by_cases hout : out gone r = some a
    · obtain ⟨b, hb, hlink⟩ := linked_leave hsymm (hR r List.mem_cons_self) h.1 hout
      obtain ⟨c, hc, hchain⟩ := ih b hb
      exact ⟨c, hc, .head hlink hchain⟩
    · exact ih a (leave_eq_false.mpr ⟨ha, hout⟩)

end Rounds
end Amind
