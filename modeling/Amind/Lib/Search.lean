/-
# Searching a text for another

`find` is where a text has another in it first, and `upTo` what stands before
it, which is the whole text if it is not there. What is found in a text is found
there in every longer one (`find_longer`), and in a shorter one as long as
that has it whole (`find_take`).
-/
import Mathlib.Data.List.Infix

namespace Amind
namespace Search

variable {α : Type} [DecidableEq α] {needle : List α}

/-- The first position of a text in another. -/
def find (needle : List α) : List α → Option ℕ
  | [] => if needle = [] then some 0 else none
  | x :: s => if needle <+: x :: s then some 0 else (find needle s).map (· + 1)

/-- What stands before the first position. -/
def upTo (needle s : List α) : List α :=
  match find needle s with
  | some i => s.take i
  | none => s

theorem find_of_starts {s : List α} (h : needle <+: s) : find needle s = some 0 := by
  cases s with
  | nil => rw [find, if_pos (List.prefix_nil.mp h)]
  | cons x s => rw [find, if_pos h]

theorem prefix_of_find : ∀ {s : List α} {i : ℕ}, find needle s = some i → needle <+: s.drop i
  | [], i, h => by
    obtain ⟨hn, h⟩ := Option.ite_none_right_eq_some.mp h
    rw [hn]
    exact List.nil_prefix
  | x :: s, i, h => by
    rw [find] at h
    split at h
    · obtain rfl := Option.some.inj h
      assumption
    · obtain ⟨j, hj, rfl⟩ := Option.map_eq_some_iff.mp h
      have ih := prefix_of_find hj
      rwa [List.drop_succ_cons]

/-- What is there is found there or before. -/
theorem find_of_drop : ∀ {s : List α} {i : ℕ}, needle <+: s.drop i → ∃ j ≤ i, find needle s = some j
  | s, 0, h => ⟨0, le_rfl, find_of_starts h⟩
  | [], i + 1, h => ⟨0, Nat.zero_le _, find_of_starts (by rwa [List.drop_nil] at h)⟩
  | x :: s, i + 1, h => by
    by_cases hstart : needle <+: x :: s
    · exact ⟨0, Nat.zero_le _, find_of_starts hstart⟩
    · obtain ⟨j, hj, hf⟩ := find_of_drop (s := s) h
      exact ⟨j + 1, Nat.succ_le_succ hj, by rw [find, if_neg hstart, hf]; rfl⟩

/-- A text is found exactly if it is in the other. -/
theorem isSome_find {s : List α} : (find needle s).isSome = true ↔ needle <:+: s := by
  rw [Option.isSome_iff_exists]
  constructor
  · rintro ⟨i, hi⟩
    exact (prefix_of_find hi).isInfix.trans (List.drop_suffix i s).isInfix
  · rintro ⟨front, back, rfl⟩
    have hdrop : (front ++ needle ++ back).drop front.length = needle ++ back := by
      rw [List.append_assoc, List.drop_left]
    obtain ⟨j, -, hj⟩ := find_of_drop (hdrop ▸ List.prefix_append needle back)
    exact ⟨j, hj⟩

theorem length_of_find {s : List α} {i : ℕ} (hn : needle ≠ []) (h : find needle s = some i) :
    i + needle.length ≤ s.length := by
  have hlen := (prefix_of_find h).length_le
  have hpos := List.length_pos_of_ne_nil hn
  rw [List.length_drop] at hlen
  omega

theorem find_longer (hn : needle ≠ []) : ∀ {s t : List α} {i : ℕ}, find needle s = some i → s <+: t →
    find needle t = some i
  | [], t, i, h, _ => absurd (Option.ite_none_right_eq_some.mp h).1 hn
  | x :: s, t, i, h, ht => by
    have hlen := length_of_find hn h
    obtain ⟨rest, rfl⟩ := ht
    have hpre : x :: s <+: x :: (s ++ rest) := ⟨rest, rfl⟩
    rw [find] at h
    rw [List.cons_append, find]
    split at h
    · rename_i hstart
      rw [if_pos (hstart.trans hpre)]
      exact h
    · rename_i hstart
      obtain ⟨j, hj, rfl⟩ := Option.map_eq_some_iff.mp h
      -- the shorter text has room for what is looked for
      rw [if_neg fun hp => hstart (List.prefix_of_prefix_length_le hp hpre (by omega)),
        find_longer hn hj ⟨rest, rfl⟩]
      rfl

theorem find_take (hn : needle ≠ []) : ∀ {s : List α} {i k : ℕ}, find needle s = some i → i + needle.length ≤ k →
    find needle (s.take k) = some i
  | [], i, k, h, _ => absurd (Option.ite_none_right_eq_some.mp h).1 hn
  | x :: s, i, 0, _, hk => by
    have hpos := List.length_pos_of_ne_nil hn
    omega
  | x :: s, i, k + 1, h, hk => by
    rw [find] at h
    rw [List.take_succ_cons, find]
    split at h
    · rename_i hstart
      obtain rfl := Option.some.inj h
      have hpre : needle <+: (x :: s).take (k + 1) := List.prefix_take_iff.mpr ⟨hstart, by omega⟩
      rw [List.take_succ_cons] at hpre
      rw [if_pos hpre]
    · rename_i hstart
      obtain ⟨j, hj, rfl⟩ := Option.map_eq_some_iff.mp h
      have hpre : x :: s.take k <+: x :: s := List.take_succ_cons ▸ List.take_prefix (k + 1) (x :: s)
      rw [if_neg fun hp => hstart (hp.trans hpre), find_take hn hj (by omega)]
      rfl

theorem find_of_head_not_mem {x : α} (hx : needle.head? = some x) : ∀ {s : List α}, x ∉ s → find needle s = none
  | [], _ => if_neg fun hn => by rw [hn] at hx; cases hx
  | y :: s, h => by
    have hstart : ¬ needle <+: y :: s := by
      rintro ⟨rest, hrest⟩
      cases needle with
      | nil => cases hx
      | cons z zs =>
        obtain rfl := Option.some.inj hx
        exact h ((List.cons.inj hrest).1 ▸ List.mem_cons_self)
    rw [find, if_neg hstart, find_of_head_not_mem hx fun hs => h (List.mem_cons_of_mem _ hs)]
    rfl

/-- Nothing is found across a byte the other does not have. -/
theorem find_append_cons {x : α} (hx : x ∉ needle) (hn : needle ≠ []) : ∀ {s : List α} (t : List α),
    find needle s = none → find needle (s ++ x :: t) = (find needle t).map (· + (s.length + 1))
  | [], t, _ => by
    have hstart : ¬ needle <+: x :: t := by
      rintro ⟨rest, hrest⟩
      cases needle with
      | nil => exact hn rfl
      | cons y ys => exact hx ((List.cons.inj hrest).1 ▸ List.mem_cons_self)
    rw [List.nil_append, find, if_neg hstart]
    rfl
  | y :: s, t, h => by
    rw [find] at h
    split at h
    · cases h
    · rename_i hstart
      have hstart' : ¬ needle <+: y :: (s ++ x :: t) := by
        intro hp
        have hwhole : (y :: s) ++ [x] <+: y :: (s ++ x :: t) := ⟨t, by simp⟩
        rcases List.prefix_or_prefix_of_prefix hp hwhole with hp | hp
        · rcases List.prefix_concat_iff.mp hp with he | hp
          · exact hx (he ▸ by simp)
          · exact hstart hp
        · exact hx (hp.subset (by simp))
      rw [List.cons_append, find, if_neg hstart', find_append_cons hx hn t (Option.map_eq_none_iff.mp h),
        Option.map_map]
      congr 1

theorem find_append_cons_none {x : α} (hx : x ∉ needle) (hn : needle ≠ []) {s t : List α} (hs : find needle s = none)
    (ht : find needle t = none) : find needle (s ++ x :: t) = none := by
  rw [find_append_cons hx hn t hs, ht]
  rfl

theorem find_singleton {x : α} {s : List α} (h : x ∉ s) (t : List α) : find [x] (s ++ x :: t) = some s.length := by
  induction s with
  | nil => exact find_of_starts ⟨t, rfl⟩
  | cons y s ih =>
    have hstart : ¬ [x] <+: y :: (s ++ x :: t) := fun hp => List.ne_of_not_mem_cons h (List.cons_prefix_cons.mp hp).1
    rw [List.cons_append, find, if_neg hstart, ih (List.not_mem_of_not_mem_cons h)]
    rfl

/-- Nothing starts within what has none of its first byte. -/
theorem find_append {front s : List α} (h : ∀ x ∈ front, needle.head? ≠ some x) (hn : needle ≠ []) :
    find needle (front ++ s) = (find needle s).map (· + front.length) := by
  induction front with
  | nil =>
    rw [List.nil_append]
    exact (congrFun Option.map_id (find needle s)).symm
  | cons x front ih =>
    obtain ⟨hx, hrest⟩ := List.forall_mem_cons.mp h
    have hstart : ¬ needle <+: x :: (front ++ s) := by
      rintro ⟨rest, hrest⟩
      cases needle with
      | nil => exact hn rfl
      | cons y ys => exact hx (congrArg some (List.cons.inj hrest).1)
    rw [List.cons_append, find, if_neg hstart, ih hrest, Option.map_map]
    rfl

theorem upTo_eq_take {s : List α} {i : ℕ} (h : find needle s = some i) : upTo needle s = s.take i := by
  rw [upTo, h]

theorem upTo_cons (x : α) (s : List α) :
    upTo needle (x :: s) = if needle <+: x :: s then [] else x :: upTo needle s := by
  unfold upTo
  rw [find]
  by_cases h : needle <+: x :: s
  · rw [if_pos h, if_pos h]
    rfl
  · rw [if_neg h, if_neg h]
    cases find needle s <;> rfl

/-- A byte the other does not start with is passed over. -/
theorem upTo_cons_of_ne {x : α} {s : List α} (h : needle.head? ≠ some x) (hn : needle ≠ []) :
    upTo needle (x :: s) = x :: upTo needle s := by
  have hstart : ¬ needle <+: x :: s := by
    rintro ⟨rest, hrest⟩
    cases needle with
    | nil => exact hn rfl
    | cons y ys => exact h (congrArg some (List.cons.inj hrest).1)
  rw [upTo_cons, if_neg hstart]

theorem upTo_append {front s : List α} (h : ∀ x ∈ front, needle.head? ≠ some x) (hn : needle ≠ []) :
    upTo needle (front ++ s) = front ++ upTo needle s := by
  induction front with
  | nil => rfl
  | cons x front ih =>
    obtain ⟨hx, hrest⟩ := List.forall_mem_cons.mp h
    rw [List.cons_append, upTo_cons_of_ne hx hn, ih hrest, List.cons_append]

/-- What stands before a text in front of another one, if no end of the text is a
start of it. -/
theorem upTo_append_of_starts (hn : needle ≠ []) (hends : ∀ d, 0 < d → d < needle.length → ¬ needle.drop d <+: needle)
    {s t : List α} (ht : needle <+: t) : upTo needle (s ++ t) = upTo needle s := by
  cases hs : find needle s with
  | some i =>
    have hi := length_of_find hn hs
    have hle : i ≤ s.length := by omega
    rw [upTo_eq_take hs, upTo_eq_take (find_longer hn hs (List.prefix_append _ _)), List.take_append_of_le_length hle]
  | none =>
    have hthere : needle <+: (s ++ t).drop s.length := by rwa [List.drop_left]
    obtain ⟨j, hj, hfind⟩ := find_of_drop hthere
    have hlast : j = s.length := by
      by_contra hne
      have hstart := prefix_of_find hfind
      rw [List.drop_append_of_le_length hj] at hstart
      rcases Nat.lt_or_ge (s.length - j) needle.length with hshort | hlong
      · -- the rest of it would be where it starts
        obtain ⟨rest, hrest⟩ := hstart
        have hdrop : needle.drop (s.length - j) <+: t := by
          refine ⟨rest, ?_⟩
          rw [← List.drop_append_of_le_length (by omega), hrest, ← List.length_drop, List.drop_left]
        refine hends _ (by omega) hshort (List.prefix_of_prefix_length_le hdrop ht ?_)
        rw [List.length_drop]
        omega
      · have hin : needle <+: s.drop j :=
          List.prefix_of_prefix_length_le hstart (List.prefix_append _ _) (by rw [List.length_drop]; omega)
        obtain ⟨k, -, hk⟩ := find_of_drop hin
        rw [hs] at hk
        cases hk
    rw [upTo_eq_take hfind, hlast, List.take_left, upTo, hs]

/-- What stands behind the first `x` that has `key` right before it. `before` was
passed over. -/
def behind (key : List α) (x : α) (before : List α) : List α → Option (List α)
  | [] => none
  | y :: s => if y = x ∧ key <:+ before then some s else behind key x (before ++ [y]) s

section Behind

variable {key : List α} {x : α}

/-- What the search for `key` and `x` finds, if it is not in what was passed over. -/
theorem behind_eq_find : ∀ {s before : List α}, ¬ key ++ [x] <:+: before → behind key x before s =
    (find (key ++ [x]) (before ++ s)).map fun i => (before ++ s).drop (i + (key.length + 1))
  | [], before, h => by
    have hnone : find (key ++ [x]) before = none := by
      cases hf : find (key ++ [x]) before with
      | none => rfl
      | some i => exact absurd ((prefix_of_find hf).isInfix.trans (List.drop_suffix _ _).isInfix) h
    rw [List.append_nil, hnone]
    rfl
  | y :: s, before, h => by
    have hn : key ++ [x] ≠ [] := List.append_ne_nil_of_right_ne_nil _ (List.cons_ne_nil _ _)
    have hsplit : before ++ y :: s = before ++ [y] ++ s := by rw [List.append_assoc, List.singleton_append]
    rw [behind]
    split
    · next hhere =>
      obtain ⟨rfl, front, rfl⟩ := hhere
      have hdrop : ∀ j ≤ front.length, (front ++ key ++ y :: s).drop j = front.drop j ++ (key ++ [y] ++ s) := by
        intro j hj
        rw [List.append_assoc, List.drop_append_of_le_length hj, List.append_assoc, List.singleton_append]
      have hthere : key ++ [y] <+: (front ++ key ++ y :: s).drop front.length := by
        rw [hdrop _ le_rfl, List.drop_length, List.nil_append]
        exact List.prefix_append _ _
      obtain ⟨j, hj, hf⟩ := find_of_drop hthere
      have hlast : j = front.length := by
        by_contra hne
        -- one that starts before would have been passed over
        have hstart := prefix_of_find hf
        have hback : front.drop j ++ key <+: (front ++ key ++ y :: s).drop j := by
          rw [hdrop j hj, ← List.append_assoc, ← List.append_assoc, List.append_assoc (front.drop j ++ key)]
          exact List.prefix_append _ _
        have hin : key ++ [y] <+: (front ++ key).drop j := by
          rw [List.drop_append_of_le_length hj]
          refine List.prefix_of_prefix_length_le hstart hback ?_
          rw [List.length_append, List.length_append, List.length_drop, List.length_singleton]
          omega
        exact h (hin.isInfix.trans (List.drop_suffix _ _).isInfix)
      have hend : front.length + (key.length + 1) = (front ++ (key ++ [y])).length := by
        rw [List.length_append, List.length_append, List.length_singleton]
      rw [hf, hlast, Option.map_some, hend, hsplit, List.append_assoc front, List.drop_left]
    · next hhere =>
      have hnot : ¬ key ++ [x] <:+: before ++ [y] := by
        intro hin
        rcases List.infix_concat_iff.mp hin with hin | hin
        · obtain ⟨front, hfront⟩ := hin
          rw [← List.append_assoc] at hfront
          obtain ⟨hkey, hx⟩ := List.append_inj' hfront rfl
          exact hhere ⟨(List.singleton_inj.mp hx).symm, front, hkey⟩
        · exact h hin
      rw [hsplit]
      exact behind_eq_find hnot

theorem behind_eq (s : List α) : behind key x [] s =
    (find (key ++ [x]) s).map fun i => s.drop (i + (key.length + 1)) := by
  have hnil : ¬ key ++ [x] <:+: [] := fun h =>
    List.append_ne_nil_of_right_ne_nil _ (List.cons_ne_nil _ _) (List.infix_nil.mp h)
  exact behind_eq_find hnil

theorem behind_append {front : List α} (h : x ∉ front) : ∀ (before s : List α),
    behind key x before (front ++ s) = behind key x (before ++ front) s := by
  induction front with
  | nil =>
    intro before s
    rw [List.append_nil, List.nil_append]
  | cons y front ih =>
    intro before s
    have hy : y ≠ x := fun heq => h (heq ▸ List.mem_cons_self)
    rw [List.cons_append, behind, if_neg fun hx => hy hx.1, ih (List.not_mem_of_not_mem_cons h), List.append_assoc,
      List.singleton_append]

end Behind

end Search
end Amind
