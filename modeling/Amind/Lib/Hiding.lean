/-
# Lists with hidden elements

What sorting, cutting off and folding a list make of some of its elements. Sorting
does not mind the others (`filter_insertionSort`). Cutting off does not, if none of
the elements is cut off or none of the others is left (`filter_take_iff`). Others that
yield nothing may be dropped (`flatMap_filter`). Two folds come to related results if
each of the other elements, on either side, keeps the relation by itself
(`related_foldl`).
-/
import Mathlib.Data.List.Sort

namespace Amind
namespace Hiding

section Sorting

variable {α : Type*} {r : α → α → Prop} [DecidableRel r] {p : α → Bool}

theorem orderedInsert_of_forall {a : α} : ∀ {l : List α}, (∀ b ∈ l, r a b) → l.orderedInsert r a = a :: l
  | [], _ => rfl
  | b :: l, h => by rw [List.orderedInsert_cons, if_pos (h b List.mem_cons_self)]

theorem filter_orderedInsert [IsTrans α r] (a : α) : ∀ {l : List α}, l.Pairwise r →
    (l.orderedInsert r a).filter p = if p a then (l.filter p).orderedInsert r a else l.filter p
  | [], _ => by cases hp : p a <;> simp [hp]
  | b :: l, h => by
    obtain ⟨hb, hl⟩ := List.pairwise_cons.mp h
    rw [List.orderedInsert_cons]
    by_cases hab : r a b
    · have hall : ∀ c ∈ (b :: l).filter p, r a c := by
        intro c hc
        rcases List.mem_cons.mp (List.mem_filter.mp hc).1 with rfl | hc
        · exact hab
        · exact IsTrans.trans a b c hab (hb c hc)
      rw [if_pos hab, orderedInsert_of_forall hall, List.filter_cons]
    · rw [if_neg hab]
      have ih := filter_orderedInsert a hl
      by_cases hpb : p b
      · rw [List.filter_cons_of_pos hpb, List.filter_cons_of_pos hpb, ih]
        split
        · rw [List.orderedInsert_cons, if_neg hab]
        · rfl
      · rw [List.filter_cons_of_neg hpb, List.filter_cons_of_neg hpb, ih]

theorem filter_insertionSort [Std.Total r] [IsTrans α r] : ∀ l : List α,
    (l.insertionSort r).filter p = (l.filter p).insertionSort r
  | [] => rfl
  | a :: l => by
    rw [List.insertionSort_cons, filter_orderedInsert a (List.pairwise_insertionSort r l), filter_insertionSort l]
    by_cases hp : p a
    · rw [if_pos hp, List.filter_cons_of_pos hp, List.insertionSort_cons]
    · rw [if_neg hp, List.filter_cons_of_neg hp]

end Sorting

section Cutting

variable {α : Type*} {p : α → Bool}

/-- **When cutting off does not mind the others**: none of the elements is cut off, or
none of the others is left. -/
theorem filter_take_iff {k : ℕ} {l : List α} : (l.take k).filter p = (l.filter p).take k ↔
    (∀ a ∈ l.drop k, ¬ p a) ∨ ∀ a ∈ l.take k, p a := by
  have hsplit : l.filter p = (l.take k).filter p ++ (l.drop k).filter p := by
    rw [← List.filter_append, List.take_append_drop]
  have hle : ((l.take k).filter p).length ≤ (l.take k).length := List.length_filter_le p _
  have htake : (l.take k).length ≤ k := (List.length_take ..).trans_le (Nat.min_le_left _ _)
  rw [hsplit, List.take_append, List.take_of_length_le (hle.trans htake), List.self_eq_append_right,
    List.take_eq_nil_iff,
    List.filter_eq_nil_iff]
  constructor
  · rintro (hfull | hnone)
    · have hlength : ((l.take k).filter p).length = (l.take k).length := by omega
      exact .inr (List.length_filter_eq_length_iff.mp hlength)
    · exact .inl hnone
  · rintro (hnone | hall)
    · exact .inr hnone
    · rw [List.filter_eq_self.mpr hall]
      rcases Nat.lt_or_ge l.length k with hlt | hge
      · rw [List.drop_of_length_le hlt.le]
        exact .inr fun a ha => absurd ha List.not_mem_nil
      · rw [List.length_take, Nat.min_eq_left hge]
        exact .inl (Nat.sub_self k)

end Cutting

theorem flatMap_filter {α β : Type*} {f : α → List β} {p : α → Bool} : ∀ {l : List α}, (∀ a ∈ l, ¬ p a → f a = []) →
    (l.filter p).flatMap f = l.flatMap f
  | [], _ => rfl
  | a :: l, h => by
    have ih := flatMap_filter fun b hb => h b (List.mem_cons_of_mem a hb)
    by_cases hp : p a
    · rw [List.filter_cons_of_pos hp, List.flatMap_cons, List.flatMap_cons, ih]
    · rw [List.filter_cons_of_neg hp, List.flatMap_cons, h a List.mem_cons_self hp, List.nil_append, ih]

section Folding

variable {α β γ : Type*} {f : β → α → β} {f' : γ → α → γ} {p : α → Bool} {R : β → γ → Prop}

/-- Elements that keep the relation by themselves. -/
theorem related_foldl_right (hright : ∀ c c' a, ¬ p a → R c c' → R c (f' c' a)) :
    ∀ (l : List α) (c : β) (c' : γ), (∀ a ∈ l, ¬ p a) → R c c' → R c (l.foldl f' c')
  | [], _, _, _, h => h
  | a :: l, c, c', hp, h =>
    related_foldl_right hright l c (f' c' a) (fun b hb => hp b (List.mem_cons_of_mem a hb))
      (hright c c' a (hp a List.mem_cons_self) h)

theorem related_foldl (hleft : ∀ c c' a, ¬ p a → R c c' → R (f c a) c')
    (hright : ∀ c c' a, ¬ p a → R c c' → R c (f' c' a)) :
    ∀ (l l' : List α) (c : β) (c' : γ), (∀ c c', ∀ a ∈ l, p a → R c c' → R (f c a) (f' c' a)) →
      l.filter p = l'.filter p → R c c' → R (l.foldl f c) (l'.foldl f' c')
  | [], l', c, c', _, he, h =>
    related_foldl_right hright l' c c' (fun a ha hp => List.filter_eq_nil_iff.mp he.symm a ha hp) h
  | a :: l, l', c, c', hboth, he, h => by
    have hboth' : ∀ c c', ∀ b ∈ l, p b → R c c' → R (f c b) (f' c' b) :=
      fun c c' b hb => hboth c c' b (List.mem_cons_of_mem a hb)
    by_cases hp : p a
    · rw [List.filter_cons_of_pos hp] at he
      obtain ⟨l₁, l₂, rfl, hskip, -, htail⟩ := List.filter_eq_cons_iff.mp he.symm
      have h₁ : R c (l₁.foldl f' c') := related_foldl_right hright l₁ c c' hskip h
      rw [List.foldl_append]
      exact related_foldl hleft hright l l₂ _ _ hboth' htail.symm (hboth c _ a List.mem_cons_self hp h₁)
    · rw [List.filter_cons_of_neg hp] at he
      exact related_foldl hleft hright l l' _ c' hboth' he (hleft c c' a hp h)

end Folding

end Hiding
end Amind
