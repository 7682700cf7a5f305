/-
# Keeping the least elements of a list

A priority queue has a greatest element on top. Which it is where there are several is
left open, and so is the order of elements of one key in a sorted list. Whoever goes
through a list and pushes each element, but replaces the top once there are `k` and only
by an element below it, keeps `k` least elements (`Least.keepAll`).

Keys are in a linear preorder.

Key definitions: `PriorityQueue`, `PriorityQueue.keep`, `Least`.
-/
import Mathlib.Data.List.Basic
import Mathlib.Data.List.Induction

namespace Amind

/-- Queues with states in `S`, of elements that have keys. -/
structure PriorityQueue (S : Type) {α β : Type} [LT β] (key : α → β) where
  empty : S
  push : α → S → S
  top : S → Option α
  pop : S → S
  /-- What is in a queue, in any order. -/
  toList : S → List α
  toList_empty : toList empty = []
  toList_push : ∀ a s, (toList (push a s)).Perm (a :: toList s)
  toList_of_top : ∀ s, top s = none → toList s = []
  toList_pop : ∀ s a, top s = some a → (toList s).Perm (a :: toList (pop s))
  greatest : ∀ s a, top s = some a → ∀ b ∈ toList s, ¬ key a < key b

/-- A way to sort by keys. -/
structure Sorting {α β : Type} [LT β] (key : α → β) where
  sort : List α → List α
  perm : ∀ l, (sort l).Perm l
  sorted : ∀ l, (sort l).Pairwise fun a b => ¬ key b < key a

/-- `k` least elements of a list, or all if they are fewer. -/
structure Least {α β : Type} [LT β] (key : α → β) (k : ℕ) (l kept : List α) : Prop where
  length : kept.length = min k l.length
  rest : ∃ left, (kept ++ left).Perm l ∧ ∀ a ∈ kept, ∀ b ∈ left, ¬ key b < key a

namespace PriorityQueue

variable {S α β : Type} [LT β] {key : α → β} (q : PriorityQueue S key)

def size (s : S) : ℕ := (q.toList s).length

/-- Push an element, or have it replace the top if it is below. -/
def keep [DecidableLT β] (k : ℕ) (s : S) (a : α) : S :=
  if q.size s < k then q.push a s
  else
    match q.top s with
    | none => s
    | some b => if key a < key b then q.push a (q.pop s) else s

def keepAll [DecidableLT β] (k : ℕ) (l : List α) : S := l.foldl (q.keep k) q.empty

/-- Take the top of a queue as often as it has elements. -/
def drain : ℕ → S → List α
  | 0, _ => []
  | n + 1, s =>
    match q.top s with
    | none => []
    | some a => a :: drain n (q.pop s)

variable {q} {s : S} {a : α} {k : ℕ} {l : List α}

theorem size_pop (h : q.top s = some a) : q.size s = q.size (q.pop s) + 1 := (q.toList_pop s a h).length_eq

theorem size_push : q.size (q.push a s) = q.size s + 1 := (q.toList_push a s).length_eq

/-- There is a top if there are elements. -/
theorem exists_top (h : 0 < q.size s) : ∃ a, q.top s = some a := by
  cases ht : q.top s with
  | none =>
    rw [size, q.toList_of_top s ht] at h
    exact absurd h (Nat.lt_irrefl 0)
  | some a => exact ⟨a, rfl⟩

/-- What is taken from a queue is what is in it. -/
theorem drain_perm : ∀ (n : ℕ) (s : S), q.size s = n → (q.drain n s).Perm (q.toList s)
  | 0, s, h => by
    rw [List.length_eq_zero_iff.mp h]
    exact .refl _
  | n + 1, s, h => by
    obtain ⟨a, ha⟩ := exists_top (Nat.lt_of_lt_of_eq (Nat.succ_pos n) h.symm)
    have hpop : q.size (q.pop s) = n := Nat.succ.inj ((size_pop ha).symm.trans h)
    rw [drain, ha]
    exact ((drain_perm n (q.pop s) hpop).cons a).trans (q.toList_pop s a ha).symm

end PriorityQueue

namespace Least

open scoped List

variable {S α β : Type} [LT β] {key : α → β} {k : ℕ} {l kept : List α}

theorem nil : Least key k [] ([] : List α) := ⟨(Nat.min_zero k).symm, [], .refl _, nofun⟩

theorem of_perm (h : Least key k l kept) {kept' : List α} (hperm : kept' ~ kept) : Least key k l kept' := by
  obtain ⟨left, hleft, hleast⟩ := h.rest
  refine ⟨hperm.length_eq.trans h.length, left, (hperm.append_right left).trans hleft, fun a ha b hb => ?_⟩
  exact hleast a (hperm.mem_iff.mp ha) b hb

theorem subset (h : Least key k l kept) {a : α} (ha : a ∈ kept) : a ∈ l := by
  obtain ⟨left, hperm, -⟩ := h.rest
  exact hperm.mem_iff.mp (List.mem_append_left left ha)

/-- What is not kept is not below what is. -/
theorem not_lt (h : Least key k l kept) {a b : α} (ha : a ∈ kept) (hb : b ∈ l) (hnot : b ∉ kept) :
    ¬ key b < key a := by
  obtain ⟨left, hperm, hleast⟩ := h.rest
  exact hleast a ha b ((List.mem_append.mp (hperm.mem_iff.mpr hb)).resolve_left hnot)

/-- The names of what is kept differ if all names do. -/
theorem nodup_map {γ : Type} {name : α → γ} (h : Least key k l kept) (hl : (l.map name).Nodup) :
    (kept.map name).Nodup := by
  obtain ⟨left, hperm, -⟩ := h.rest
  have hall : ((kept ++ left).map name).Nodup := (hperm.map name).nodup_iff.mpr hl
  rw [List.map_append] at hall
  exact (List.nodup_append.mp hall).1

/-- One more, which there is room for. -/
theorem add (h : Least key k l kept) (hroom : kept.length < k) {a : α} {kept' : List α} (hkept : kept' ~ a :: kept) :
    Least key k (l ++ [a]) kept' := by
  obtain ⟨left, hperm, -⟩ := h.rest
  have hlength := h.length
  -- nothing has been left out yet
  have hnone : left = [] := by
    have hsum := hperm.length_eq
    rw [List.length_append] at hsum
    refine List.length_eq_zero_iff.mp ?_
    omega
  have hall : kept ~ l := by rwa [hnone, List.append_nil] at hperm
  refine ⟨?_, [], ?_, fun _ _ _ hb => absurd hb List.not_mem_nil⟩
  · rw [hkept.length_eq, List.length_cons, List.length_append, List.length_singleton]
    omega
  · rw [List.append_nil]
    exact (hkept.trans (hall.cons a)).trans (List.perm_append_singleton a l).symm

/-- One more, which is left out. -/
theorem leave (h : Least key k l kept) (hfull : k ≤ kept.length) {a : α} (ha : ∀ b ∈ kept, ¬ key a < key b) :
    Least key k (l ++ [a]) kept := by
  obtain ⟨left, hperm, hleast⟩ := h.rest
  have hlength := h.length
  refine ⟨?_, a :: left, ?_, fun b hb c hc => ?_⟩
  · rw [List.length_append, List.length_singleton]
    omega
  · exact (List.perm_middle.trans (hperm.cons a)).trans (List.perm_append_singleton a l).symm
  · rcases List.mem_cons.mp hc with rfl | hc
    · exact ha b hb
    · exact hleast b hb c hc

variable [LE β] [Std.IsLinearPreorder β] [Std.LawfulOrderLT β]

/-- A key may be between what is kept and what is left out. -/
theorem of_between (x : β) {left : List α} (hlength : kept.length = min k l.length) (hperm : kept ++ left ~ l)
    (hbelow : ∀ a ∈ kept, key a ≤ x) (habove : ∀ b ∈ left, x ≤ key b) : Least key k l kept :=
  ⟨hlength, left, hperm, fun a ha b hb => Std.not_lt.mpr (Std.le_trans (hbelow a ha) (habove b hb))⟩

/-- One more, in the place of a greatest. What is kept is at most that one, and what is
left out at least. -/
theorem replace (h : Least key k l kept) (hfull : k ≤ kept.length) {a b : α} {rest kept' : List α}
    (hrest : kept ~ b :: rest) (hgreatest : ∀ c ∈ kept, ¬ key b < key c) (hlt : key a < key b)
    (hkept : kept' ~ a :: rest) : Least key k (l ++ [a]) kept' := by
  obtain ⟨left, hperm, hleast⟩ := h.rest
  have hlength := h.length
  have hperm' : kept' ++ b :: left ~ l ++ [a] :=
    calc kept' ++ b :: left
      _ ~ a :: (rest ++ b :: left) := hkept.append_right (b :: left)
      _ ~ a :: b :: (rest ++ left) := List.perm_middle.cons a
      _ ~ a :: (kept ++ left) := (hrest.symm.append_right left).cons a
      _ ~ a :: l := hperm.cons a
      _ ~ l ++ [a] := (List.perm_append_singleton a l).symm
  refine of_between (key b) ?_ hperm' (fun c hc => ?_) fun c hc => ?_
  · rw [hkept.length_eq, List.length_cons, ← List.length_cons (a := b), ← hrest.length_eq, List.length_append,
      List.length_singleton]
    omega
  · rcases List.mem_cons.mp (hkept.mem_iff.mp hc) with rfl | hc
    · exact Std.le_of_lt hlt
    · exact Std.not_lt.mp (hgreatest c (hrest.mem_iff.mpr (List.mem_cons_of_mem b hc)))
  · rcases List.mem_cons.mp hc with rfl | hc
    · exact Std.le_refl _
    · exact Std.not_lt.mp (hleast b (hrest.mem_iff.mpr List.mem_cons_self) c hc)

variable [DecidableLT β] {q : PriorityQueue S key} {s : S}

/-- One more element for the queue. -/
theorem keep (h : Least key k l (q.toList s)) (a : α) : Least key k (l ++ [a]) (q.toList (q.keep k s a)) := by
  unfold PriorityQueue.keep
  by_cases hroom : q.size s < k
  · rw [if_pos hroom]
    exact h.add hroom (q.toList_push a s)
  · have hfull : k ≤ (q.toList s).length := Nat.not_lt.mp hroom
    rw [if_neg hroom]
    cases htop : q.top s with
    | none =>
      -- nothing is to be kept
      have hnil := q.toList_of_top s htop
      refine h.leave hfull fun b hb => ?_
      rw [hnil] at hb
      exact absurd hb List.not_mem_nil
    | some b =>
      have hgreatest := q.greatest s b htop
      dsimp only
      by_cases hlt : key a < key b
      · rw [if_pos hlt]
        exact h.replace hfull (q.toList_pop s b htop) hgreatest hlt (q.toList_push a (q.pop s))
      · rw [if_neg hlt]
        refine h.leave hfull fun c hc hac => hlt ?_
        exact Std.lt_of_lt_of_le hac (Std.not_lt.mp (hgreatest c hc))

/-- **What is kept are least elements**, in whatever order they come. -/
theorem keepAll (q : PriorityQueue S key) (k : ℕ) (l : List α) : Least key k l (q.toList (q.keepAll k l)) := by
  induction l using List.reverseRecOn with
  | nil =>
    have hnil : q.toList (q.keepAll k []) = [] := q.toList_empty
    rw [hnil]
    exact .nil
  | append_singleton l a ih =>
    have hstep := ih.keep a
    rwa [PriorityQueue.keepAll, List.foldl_append]

end Least
end Amind
