/-
# Members read one after the other

A value with some members is read into a state: member after member, in a fixed
order, each into a field of its own. A member may be missing, and then its field
stays as it is. Reading ends at the first that is there and cannot be read.

`membersRead` are those that are read. If `R` says of a member what `Q` says of
the field it is read into (`Reads`), then what holds of a field in the end is
what its member says, if it is read (`Reads.holds_of_mem`), and else what held at
first (`Reads.holds_of_not_mem`).
-/
import Mathlib.Data.List.Basic
import Mathlib.Data.List.Nodup

namespace Amind
namespace Members

variable {K J σ : Type}

/-- Read the members of some keys. -/
def readAll (find : K → Option J) (read : K → J → σ → Option σ) : List K → σ → σ
  | [], s => s
  | k :: ks, s =>
    match find k with
    | none => readAll find read ks s
    | some j =>
      match read k j s with
      | none => s
      | some s' => readAll find read ks s'

/-- The members that are read. -/
def membersRead (find : K → Option J) (readable : K → J → Bool) : List K → List (K × J)
  | [] => []
  | k :: ks =>
    match find k with
    | none => membersRead find readable ks
    | some j => if readable k j then (k, j) :: membersRead find readable ks else []

variable {find : K → Option J} {readable : K → J → Bool} {k : K} {j : J}

theorem of_mem_membersRead : ∀ {ks : List K}, (k, j) ∈ membersRead find readable ks →
    k ∈ ks ∧ find k = some j ∧ readable k j = true
  | [], h => absurd h List.not_mem_nil
  | k' :: ks, h => by
    unfold membersRead at h
    cases hf : find k' with
    | none =>
      rw [hf] at h
      obtain ⟨hk, hrest⟩ := of_mem_membersRead h
      exact ⟨List.mem_cons_of_mem _ hk, hrest⟩
    | some j' =>
      simp only [hf] at h
      by_cases hr : readable k' j' = true
      · rw [if_pos hr] at h
        rcases List.mem_cons.mp h with he | h
        · cases he
          exact ⟨List.mem_cons_self, hf, hr⟩
        · obtain ⟨hk, hrest⟩ := of_mem_membersRead h
          exact ⟨List.mem_cons_of_mem _ hk, hrest⟩
      · rw [if_neg hr] at h
        exact absurd h List.not_mem_nil

/-- If all can be read, all are. -/
theorem mem_membersRead : ∀ {ks : List K}, (∀ k ∈ ks, ∀ j, find k = some j → readable k j = true) →
    k ∈ ks → find k = some j → (k, j) ∈ membersRead find readable ks
  | k' :: ks, hall, hk, hf => by
    have hrest : ∀ k ∈ ks, ∀ j, find k = some j → readable k j = true := fun k hk =>
      hall k (List.mem_cons_of_mem _ hk)
    unfold membersRead
    rcases List.mem_cons.mp hk with rfl | hk
    · simp only [hf, hall k List.mem_cons_self j hf, if_true]
      exact List.mem_cons_self
    · have hmem := mem_membersRead hrest hk hf
      cases hf' : find k' with
      | none => exact hmem
      | some j' =>
        simp only [hall k' List.mem_cons_self j' hf', if_true]
        exact List.mem_cons_of_mem _ hmem

/-- `Q` is about the field of each key and `R` about its member: reading one
makes `Q` what `R` says, where the field is still `Fresh`, and leaves the others
as they are. -/
structure Reads (read : K → J → σ → Option σ) (readable : K → J → Bool) (Fresh Q : K → σ → Prop)
    (R : K → J → Prop) : Prop where
  isSome : ∀ k j s, (read k j s).isSome = readable k j
  own : ∀ {k j s s'}, Fresh k s → read k j s = some s' → (Q k s' ↔ R k j)
  fresh : ∀ {k k' j s s'}, k ≠ k' → read k' j s = some s' → Fresh k s → Fresh k s'
  frame : ∀ {k k' j s s'}, k ≠ k' → read k' j s = some s' → (Q k s' ↔ Q k s)

namespace Reads

variable {read : K → J → σ → Option σ} {Fresh Q : K → σ → Prop} {R : K → J → Prop}

/-- A field of which no member is read stays as it is. -/
theorem holds_of_not_mem (h : Reads read readable Fresh Q R) : ∀ {ks : List K} {s : σ},
    (∀ j, (k, j) ∉ membersRead find readable ks) → (Q k (readAll find read ks s) ↔ Q k s)
  | [], _, _ => Iff.rfl
  | k' :: ks, s, hk => by
    unfold membersRead at hk
    unfold readAll
    cases hf : find k' with
    | none =>
      rw [hf] at hk
      exact h.holds_of_not_mem hk
    | some j' =>
      simp only [hf] at hk
      have hsome := h.isSome k' j' s
      cases hr : read k' j' s with
      | none => simp only [hr]
      | some s' =>
        rw [hr, Option.isSome_some] at hsome
        rw [if_pos hsome.symm] at hk
        have hne : k ≠ k' := by
          rintro rfl
          exact hk j' List.mem_cons_self
        simp only [hr]
        rw [h.holds_of_not_mem fun j hj => hk j (List.mem_cons_of_mem _ hj)]
        exact h.frame hne hr

/-- **What a member says holds of its field**, if it is read. -/
theorem holds_of_mem (h : Reads read readable Fresh Q R) : ∀ {ks : List K} {s : σ}, ks.Nodup → Fresh k s →
    (k, j) ∈ membersRead find readable ks → (Q k (readAll find read ks s) ↔ R k j)
  | [], _, _, _, hmem => absurd hmem List.not_mem_nil
  | k' :: ks, s, hnd, hfresh, hmem => by
    obtain ⟨hnot, hnd⟩ := List.nodup_cons.mp hnd
    unfold membersRead at hmem
    unfold readAll
    cases hf : find k' with
    | none =>
      rw [hf] at hmem
      exact h.holds_of_mem hnd hfresh hmem
    | some j' =>
      simp only [hf] at hmem
      have hsome := h.isSome k' j' s
      cases hr : read k' j' s with
      | none =>
        rw [hr, Option.isSome_none] at hsome
        rw [← hsome] at hmem
        exact absurd hmem List.not_mem_nil
      | some s' =>
        rw [hr, Option.isSome_some] at hsome
        rw [if_pos hsome.symm] at hmem
        simp only [hr]
        rcases List.mem_cons.mp hmem with he | htail
        · -- the member is this one, and none of the others is of its key
          cases he
          rw [h.holds_of_not_mem fun j hj => hnot (of_mem_membersRead hj).1]
          exact h.own hfresh hr
        · have hne : k ≠ k' := by
            rintro rfl
            exact hnot (of_mem_membersRead htail).1
          exact h.holds_of_mem hnd (h.fresh hne hr hfresh) htail

/-- What holds of every field at first holds of every field in the end if and
only if all members that are read say so. -/
theorem holds_iff (h : Reads read readable Fresh Q R) {ks : List K} {s : σ} (hnd : ks.Nodup) (hfresh : ∀ k, Fresh k s)
    (hs : ∀ k, Q k s) : (∀ k, Q k (readAll find read ks s)) ↔ ∀ m ∈ membersRead find readable ks, R m.1 m.2 := by
  constructor
  · exact fun hall m hm => (h.holds_of_mem hnd (hfresh m.1) hm).mp (hall m.1)
  · intro hall k
    by_cases hk : ∃ j, (k, j) ∈ membersRead find readable ks
    · obtain ⟨j, hj⟩ := hk
      exact (h.holds_of_mem hnd (hfresh k) hj).mpr (hall _ hj)
    · exact (h.holds_of_not_mem (not_exists.mp hk)).mpr (hs k)

end Reads
end Members
end Amind
