/-
# Chains of replacements

A list of pairs says what was replaced by what, and chains are the classes of
the equivalence it generates. A history is `Linear` if nothing was replaced
twice and no chain has two members that are current. `linear_put_iff` and
`linear_replace_iff` say exactly when it stays so as a member becomes current,
or is replaced.
-/
import Mathlib.Data.List.Nodup
import Mathlib.Logic.Relation

namespace Amind
namespace Chains

open Relation (EqvGen)

variable {α : Type} {edges : List (α × α)} {active : α → Prop} {a b u v : α}

/-- The two belong to one chain. -/
def Chain (edges : List (α × α)) : α → α → Prop := EqvGen fun a b => (a, b) ∈ edges

theorem Chain.refl (a : α) : Chain edges a a := EqvGen.refl a

theorem Chain.symm (h : Chain edges a b) : Chain edges b a := EqvGen.symm _ _ h

theorem Chain.trans {c : α} (h : Chain edges a b) (h' : Chain edges b c) : Chain edges a c := EqvGen.trans _ _ _ h h'

theorem eq_of_chain_nil (h : Chain [] a b) : a = b := by
  induction h with
  | rel a b h => exact absurd h List.not_mem_nil
  | refl => rfl
  | symm _ _ _ ih => exact ih.symm
  | trans _ _ _ _ _ ih ih' => exact ih.trans ih'

theorem Chain.cons (h : Chain edges a b) (e : α × α) : Chain (e :: edges) a b :=
  EqvGen.mono (fun _ _ hm => List.mem_cons_of_mem e hm) a b h

/-- A new pair joins two chains. -/
theorem chain_cons : Chain ((u, v) :: edges) a b ↔
    Chain edges a b ∨ (Chain edges a u ∨ Chain edges a v) ∧ (Chain edges b u ∨ Chain edges b v) := by
  constructor
  · intro h
    induction h with
    | rel a b h =>
      rcases List.mem_cons.mp h with he | h
      · obtain ⟨rfl, rfl⟩ := Prod.mk.inj he
        exact .inr ⟨.inl (.refl a), .inr (.refl b)⟩
      · exact .inl (EqvGen.rel a b h)
    | refl a => exact .inl (.refl a)
    | symm _ _ _ ih => exact ih.imp Chain.symm And.symm
    | trans a b c _ _ ih ih' =>
      have hmove : ∀ {a b : α}, Chain edges a b → Chain edges b u ∨ Chain edges b v → Chain edges a u ∨
          Chain edges a v :=
        fun h => Or.imp h.trans h.trans
      rcases ih with hab | ⟨ha, hb⟩
      · rcases ih' with hbc | ⟨hb, hc⟩
        · exact .inl (hab.trans hbc)
        · exact .inr ⟨hmove hab hb, hc⟩
      · rcases ih' with hbc | ⟨-, hc⟩
        · exact .inr ⟨ha, hmove hbc.symm hb⟩
        · exact .inr ⟨ha, hc⟩
  · have hjoin : Chain ((u, v) :: edges) u v := EqvGen.rel u v List.mem_cons_self
    have hend : ∀ {a : α}, Chain edges a u ∨ Chain edges a v → Chain ((u, v) :: edges) a u := by
      rintro a (h | h)
      · exact h.cons _
      · exact (h.cons _).trans hjoin.symm
    rintro (h | ⟨ha, hb⟩)
    · exact h.cons _
    · exact (hend ha).trans (hend hb).symm

/-- Nothing was replaced twice, and no chain has two current members. -/
structure Linear (edges : List (α × α)) (active : α → Prop) : Prop where
  successor : (edges.map Prod.fst).Nodup
  current : ∀ a b, active a → active b → Chain edges a b → a = b

theorem linear_nil : Linear ([] : List (α × α)) active where
  successor := List.nodup_nil
  current := fun _ _ _ _ h => eq_of_chain_nil h

/-- No other member of the chain of `i` is current. -/
def Alone (edges : List (α × α)) (active : α → Prop) (i : α) : Prop := ∀ j, Chain edges i j → j ≠ i → ¬ active j

/-- Members may cease to be current. -/
theorem Linear.mono (h : Linear edges active) {active' : α → Prop} (hsub : ∀ a, active' a → active a) :
    Linear edges active' :=
  ⟨h.successor, fun a b ha hb => h.current a b (hsub a ha) (hsub b hb)⟩

/-- A member that becomes current has to be alone in its chain. -/
theorem linear_put_iff (h : Linear edges active) {i : α} {active' : α → Prop}
    (hactive : ∀ a, active' a ↔ a = i ∨ active a) : Linear edges active' ↔ Alone edges active i := by
  constructor
  · intro h' j hij hne hj
    exact hne (h'.current i j ((hactive i).mpr (.inl rfl)) ((hactive j).mpr (.inr hj)) hij).symm
  · intro halone
    refine ⟨h.successor, fun a b ha hb hab => ?_⟩
    rcases (hactive a).mp ha with rfl | ha
    · rcases (hactive b).mp hb with rfl | hb
      · rfl
      · by_contra hne
        exact halone b hab (Ne.symm hne) hb
    · rcases (hactive b).mp hb with rfl | hb
      · by_contra hne
        exact halone a hab.symm hne ha
      · exact h.current a b ha hb hab

/-- A current member may be replaced if it was not before, and by what is in no
chain with another current member. -/
theorem linear_replace_iff (h : Linear edges active) (hu : active u) {active' : α → Prop}
    (hactive : ∀ a, active' a ↔ a = v ∨ a ≠ u ∧ active a) : Linear ((u, v) :: edges) active' ↔
      u ∉ edges.map Prod.fst ∧ ∀ j, Chain edges v j → j ≠ u → j ≠ v → ¬ active j := by
  have huv : Chain ((u, v) :: edges) u v := EqvGen.rel u v List.mem_cons_self
  constructor
  · intro h'
    refine ⟨(List.nodup_cons.mp h'.successor).1, fun j hvj hju hjv hj => hjv ?_⟩
    exact (h'.current v j ((hactive v).mpr (.inl rfl)) ((hactive j).mpr (.inr ⟨hju, hj⟩)) (hvj.cons _)).symm
  · rintro ⟨hnew, hfree⟩
    refine ⟨List.nodup_cons.mpr ⟨hnew, h.successor⟩, ?_⟩
    -- what is still current is in neither of the two chains
    have hout : ∀ a, a ≠ v → a ≠ u ∧ active a → ¬ (Chain edges a u ∨ Chain edges a v) := by
      rintro a hav ⟨hau, ha⟩ (hc | hc)
      · exact hau (h.current a u ha hu hc)
      · exact hfree a hc.symm hau hav ha
    intro a b ha hb hab
    rcases chain_cons.mp hab with hold | ⟨hca, hcb⟩
    · by_cases hav : a = v
      · by_cases hbv : b = v
        · rw [hav, hbv]
        · exact absurd (.inr (hav ▸ hold.symm)) (hout b hbv (((hactive b).mp hb).resolve_left hbv))
      · have ha := ((hactive a).mp ha).resolve_left hav
        by_cases hbv : b = v
        · exact absurd (.inr (hbv ▸ hold)) (hout a hav ha)
        · exact h.current a b ha.2 (((hactive b).mp hb).resolve_left hbv).2 hold
    · by_cases hav : a = v
      · by_cases hbv : b = v
        · rw [hav, hbv]
        · exact absurd hcb (hout b hbv (((hactive b).mp hb).resolve_left hbv))
      · exact absurd hca (hout a hav (((hactive a).mp ha).resolve_left hav))

end Chains
end Amind
