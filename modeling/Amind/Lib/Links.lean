/-
# Chains of links

A place, the head of a chain or one of its items, may link an item, or none. Reading the
link of a place may fail. A chain ends where a place links none (`Chain`). Going along
one while what is next has a property ends at the last item that has it, if those that
have it come first (`walk_eq`), from wherever among them it starts. An item that is
linked between two places is then between them (`Chain.splice`), and chains that do not
go through either are as they were (`Chain.congr`).

Key definitions: `Chain`, `walk`, `items`.
-/
import Mathlib.Data.List.Nodup

namespace Amind
namespace Links

variable {ν α : Type} (node : α → ν)

/-- The place where these items end. -/
def endOf : ν → List α → ν
  | x, [] => x
  | _, p :: ps => endOf (node p) ps

/-- From this place on these items are linked, and then none. -/
def Chain (next : ν → Option (Option α)) : ν → List α → Prop
  | x, [] => next x = some none
  | x, p :: ps => next x = some (some p) ∧ Chain next (node p) ps

/-- Go along the links while what is next is `before`. -/
def walk (next : ν → Option (Option α)) (before : α → Option Bool) : ℕ → ν → Option ν
  | 0, _ => none
  | fuel + 1, x =>
    match next x with
    | none => none
    | some none => some x
    | some (some p) =>
      match before p with
      | none => none
      | some false => some x
      | some true => walk next before fuel (node p)

/-- The items that are linked from this place on. -/
def items (next : ν → Option (Option α)) : ℕ → ν → Option (List α)
  | 0, _ => none
  | fuel + 1, x =>
    match next x with
    | none => none
    | some none => some []
    | some (some p) => (items next fuel (node p)).map (p :: ·)

variable {node} {next next' : ν → Option (Option α)} {x y : ν} {front back : List α}

/-! ### Ends -/

theorem endOf_append (x : ν) : ∀ front : List α, endOf node x (front ++ back) = endOf node (endOf node x front) back
  | [] => rfl
  | p :: front => endOf_append (node p) front

theorem endOf_eq (x : ν) : ∀ ps : List α, endOf node x ps = x ∨ ∃ p ∈ ps, endOf node x ps = node p
  | [] => .inl rfl
  | p :: ps => by
    obtain h | ⟨q, hq, h⟩ := endOf_eq (node p) ps
    · exact .inr ⟨p, List.mem_cons_self, h⟩
    · exact .inr ⟨q, List.mem_cons_of_mem _ hq, h⟩

/-- A place at an item is where the items up to it end. -/
theorem exists_endOf (h : y = x ∨ ∃ p ∈ front, y = node p) :
    ∃ pre post, front = pre ++ post ∧ y = endOf node x pre := by
  obtain rfl | ⟨p, hp, rfl⟩ := h
  · exact ⟨[], front, rfl, rfl⟩
  · obtain ⟨pre, post, rfl⟩ := List.append_of_mem hp
    exact ⟨pre ++ [p], post, by simp, by rw [endOf_append]; rfl⟩

/-! ### Chains -/

theorem Chain.tail : ∀ {front : List α} {x : ν}, Chain node next x (front ++ back) →
    Chain node next (endOf node x front) back
  | [], _, h => h
  | _ :: _, _, h => h.2.tail

theorem Chain.congr : ∀ {ps : List α} {x : ν}, Chain node next x ps → next' x = next x →
    (∀ p ∈ ps, next' (node p) = next (node p)) → Chain node next' x ps
  | [], _, h, hx, _ => hx.trans h
  | p :: ps, _, h, hx, hps => by
    obtain ⟨hp, hps⟩ := List.forall_mem_cons.mp hps
    exact ⟨hx.trans h.1, h.2.congr hp hps⟩

theorem Chain.next_eq {ps : List α} (h : Chain node next x ps) : next x = some ps.head? := by
  cases ps with
  | nil => exact h
  | cons p ps => exact h.1

/-- What is linked at the end of the first items. -/
theorem Chain.next_endOf (h : Chain node next x (front ++ back)) : next (endOf node x front) = some back.head? :=
  h.tail.next_eq

/-- **Linking in an item.** It links what was linked at the end of the first items, and is
linked there. -/
theorem Chain.splice {new : α} (hnode : Function.Injective node) : ∀ {front : List α} {x : ν},
    Chain node next x (front ++ back) → (front ++ back).Nodup → (∀ p ∈ front ++ back, x ≠ node p) →
    new ∉ front ++ back → x ≠ node new → next' (node new) = next (endOf node x front) →
    next' (endOf node x front) = some (some new) →
    (∀ z, z ≠ node new → z ≠ endOf node x front → next' z = next z) → Chain node next' x (front ++ new :: back)
  | [], x, h, _, hx, hnew, hxnew, hlinks, hlinked, hrest => by
    have hother : ∀ p ∈ back, next' (node p) = next (node p) := fun p hp =>
      hrest (node p) (fun he => hnew (hnode he ▸ hp)) fun he => hx p hp he.symm
    refine ⟨hlinked, ?_⟩
    cases back with
    | nil => exact hlinks.trans h
    | cons p back =>
      obtain ⟨hp, hback⟩ := List.forall_mem_cons.mp hother
      exact ⟨hlinks.trans h.1, h.2.congr hp hback⟩
  | p :: front, x, h, hn, hx, hnew, hxnew, hlinks, hlinked, hrest => by
    obtain ⟨hnot, hn⟩ := List.nodup_cons.mp hn
    rw [List.cons_append, List.mem_cons, not_or] at hnew
    have hend : x ≠ endOf node (node p) front := by
      obtain he | ⟨q, hq, he⟩ := endOf_eq (node p) front
      · rw [he]
        exact hx p List.mem_cons_self
      · rw [he]
        exact hx q (List.mem_cons_of_mem _ (List.mem_append_left _ hq))
    refine ⟨(hrest x hxnew hend).trans h.1, ?_⟩
    refine h.2.splice hnode hn (fun q hq he => ?_) hnew.2 (fun he => hnew.1 (hnode he).symm) hlinks hlinked hrest
    exact hnot (hnode he ▸ hq)

/-! ### Going along -/

/-- **Where a walk ends.** At the last of the first items, from any place among them. -/
theorem walk_eq {before : α → Option Bool} {fuel : ℕ} (h : Chain node next x (front ++ back))
    (hy : y = x ∨ ∃ p ∈ front, y = node p) (hfront : ∀ p ∈ front, before p = some true)
    (hback : ∀ p ∈ back.head?, before p = some false) (hfuel : front.length < fuel) :
    walk node next before fuel y = some (endOf node x front) := by
  have hfrom : ∀ (post : List α) (y : ν) (fuel : ℕ), Chain node next y (post ++ back) →
      (∀ p ∈ post, before p = some true) → post.length < fuel →
      walk node next before fuel y = some (endOf node y post) := by
    intro post
    induction post with
    | nil =>
      intro y fuel h _ hfuel
      obtain ⟨fuel, rfl⟩ := Nat.exists_eq_add_one.mpr hfuel
      rw [walk, h.next_eq, List.nil_append]
      cases hb : back.head? with
      | none => rfl
      | some p =>
        dsimp only
        rw [hback p hb]
        rfl
    | cons p post ih =>
      intro y fuel h hpost hfuel
      obtain ⟨hp, hpost⟩ := List.forall_mem_cons.mp hpost
      obtain ⟨fuel, rfl⟩ := Nat.exists_eq_add_one.mpr (Nat.zero_lt_of_lt hfuel)
      rw [walk, h.1]
      dsimp only
      rw [hp]
      exact ih (node p) fuel h.2 hpost (Nat.lt_of_succ_lt_succ hfuel)
  obtain ⟨pre, post, rfl, rfl⟩ := exists_endOf hy
  rw [endOf_append]
  rw [List.append_assoc] at h
  refine hfrom post _ fuel h.tail (fun p hp => hfront p (List.mem_append_right _ hp)) ?_
  rw [List.length_append] at hfuel
  omega

theorem items_eq : ∀ {ps : List α} {x : ν} {fuel : ℕ}, Chain node next x ps → ps.length < fuel →
    items node next fuel x = some ps
  | [], x, fuel + 1, h, _ => by rw [items, h]
  | p :: ps, x, fuel + 1, h, hfuel => by
    rw [items, h.1]
    dsimp only
    rw [items_eq h.2 (Nat.lt_of_succ_lt_succ hfuel)]
    rfl

end Links
end Amind
