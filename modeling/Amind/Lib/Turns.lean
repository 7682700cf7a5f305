/-
# Going through a list and leaving out what is alike

The members of a list have their turns, in order, but for those that are `gone`.
In its turn a member meets the ones after it that are not gone and are alike, up
to the first that is too far apart. It leaves out those it meets, except its
rivals: those that it is below. The last of its rivals is kept for it, or itself
if it has none (`kept`), and all others of the group are `given`.

Everything has a turn or is left out, once (`turns_perm`). What is given are the
ones left out and those that have rivals, each once, and nothing kept is given, if
and only if no rival is itself left out or has rivals, and there are never two
(`steady_iff`).

Members are told apart by keys.
-/
import Mathlib.Data.List.Nodup
import Mathlib.Data.List.Perm.Lattice
import Mathlib.Data.List.Perm.Subperm
import Mathlib.Logic.Relation

namespace Amind
namespace Turns

variable {α κ : Type}

section Group

variable (below : α → α → Prop) [DecidableRel below]

/-- Of those that are met, the ones it is below. -/
def rivals (x : α) (ys : List α) : List α := ys.filter fun y => below x y

/-- Of those that are met, the others. They are left out. -/
def absorbed (x : α) (ys : List α) : List α := ys.filter fun y => ¬ below x y

/-- What is kept of a group, and what is given, as the members met come one
after the other. -/
def group (x : α) : List α → α × List α → α × List α
  | [], g => g
  | y :: ys, g => group x ys (if below x y then (y, g.2 ++ [g.1]) else (g.1, g.2 ++ [y]))

def kept (t : α × List α) : α := (group below t.1 t.2 (t.1, [])).1

def given (t : α × List α) : List α := (group below t.1 t.2 (t.1, [])).2

/-- What is given as the members met come, each with the one it is alike and the one
that is kept then. -/
def gives (x : α) : List α → α → List (α × α × α)
  | [], _ => []
  | y :: ys, k => if below x y then (k, y, y) :: gives x ys y else (y, x, k) :: gives x ys k

/-- What a turn leaves out: those that are absorbed, and whose turn it is if it has
rivals. -/
def marks (t : α × List α) : List α :=
  absorbed below t.1 t.2 ++ if rivals below t.1 t.2 = [] then [] else [t.1]

end Group

section Turns

variable [DecidableEq κ] (key : α → κ) (apart alike below : α → α → Prop) [DecidableRel apart] [DecidableRel alike]
  [DecidableRel below]

/-- Those that `x` meets in its turn. -/
def met (gone : κ → Bool) (x : α) (ys : List α) : List α :=
  ((ys.filter fun y => !gone (key y)).takeWhile fun y => ¬ apart x y).filter fun y => alike x y

/-- What is gone after the turn of `x`. -/
def leave (gone : κ → Bool) (x : α) (ys : List α) (k : κ) : Bool :=
  gone k || decide (k ∈ (absorbed below x ys).map key)

/-- The turns, each with those that are met in it. -/
def turns (gone : κ → Bool) : List α → List (α × List α)
  | [] => []
  | x :: xs =>
    if gone (key x) then turns gone xs
    else (x, met key apart alike gone x xs) :: turns (leave key below gone x (met key apart alike gone x xs)) xs

end Turns

/-! ### A group -/

section Group

variable {below : α → α → Prop} [DecidableRel below] {x y : α} {ys : List α}

theorem mem_rivals : y ∈ rivals below x ys ↔ y ∈ ys ∧ below x y := by simp [rivals]

theorem mem_absorbed : y ∈ absorbed below x ys ↔ y ∈ ys ∧ ¬ below x y := by simp [absorbed]

variable (below) in
theorem rivals_append_absorbed (x : α) (ys : List α) : (rivals below x ys ++ absorbed below x ys).Perm ys := by
  have h := List.filter_append_perm (fun y => decide (below x y)) ys
  unfold rivals absorbed
  simpa using h

variable (below) (x) in
/-- The members are in the group, one of them kept. -/
theorem group_perm : ∀ (ys : List α) (g : α × List α),
    ((group below x ys g).1 :: (group below x ys g).2).Perm (g.1 :: g.2 ++ ys)
  | [], g => by
    rw [List.append_nil]
    rfl
  | y :: ys, g => by
    refine (group_perm ys _).trans ?_
    have hmove : (g.1 :: g.2 ++ y :: ys).Perm (y :: (g.1 :: g.2) ++ ys) := List.perm_middle
    split
    · have hlast : (g.2 ++ [g.1]).Perm (g.1 :: g.2) := List.perm_append_singleton _ _
      exact ((hlast.cons y).append_right ys).trans hmove.symm
    · have hlast : (g.1 :: (g.2 ++ [y])).Perm (y :: g.1 :: g.2) := List.perm_append_singleton y (g.1 :: g.2)
      exact (hlast.append_right ys).trans hmove.symm

variable (below) (x) in
theorem group_snd : ∀ (ys : List α) (g : α × List α),
    (group below x ys g).2 = g.2 ++ (gives below x ys g.1).map Prod.fst
  | [], g => (List.append_nil g.2).symm
  | y :: ys, g => by
    unfold group gives
    rw [group_snd ys]
    split
    · rw [List.map_cons, List.append_assoc, List.singleton_append]
    · rw [List.map_cons, List.append_assoc, List.singleton_append]

theorem given_eq (t : α × List α) : given below t = (gives below t.1 t.2 t.1).map Prod.fst :=
  (group_snd below t.1 t.2 (t.1, [])).trans (List.nil_append _)

variable (below) (x) in
/-- The last rival is kept. -/
theorem group_kept : ∀ (ys : List α) (g : α × List α),
    (group below x ys g).1 = (rivals below x ys).getLast?.getD g.1
  | [], _ => rfl
  | y :: ys, g => by
    unfold group rivals
    rw [group_kept ys]
    by_cases h : below x y
    · rw [if_pos h, List.filter_cons_of_pos (by simpa using h)]
      unfold rivals
      cases hr : (ys.filter fun y => decide (below x y)).getLast? with
      | none => simp [List.getLast?_eq_none_iff.mp hr]
      | some u => simp [List.getLast?_cons, hr]
    · rw [if_neg h, List.filter_cons_of_neg (by simpa using h)]
      rfl

open scoped List in
/-- What is given is marked, but for all rivals except the last. -/
theorem given_perm (t : α × List α) :
    (given below t).Perm (marks below t ++ (rivals below t.1 t.2).dropLast) := by
  have hgroup := group_perm below t.1 t.2 (t.1, [])
  have hkept := group_kept below t.1 t.2 (t.1, [])
  have hsplit := rivals_append_absorbed below t.1 t.2
  unfold given marks
  rw [hkept] at hgroup
  cases hr : (rivals below t.1 t.2).getLast? with
  | none =>
    have hnil := List.getLast?_eq_none_iff.mp hr
    rw [hr] at hgroup
    rw [hnil] at hsplit
    rw [if_pos hnil, hnil, List.dropLast_nil, List.append_nil, List.append_nil]
    exact (List.Perm.cons_inv hgroup).trans hsplit.symm
  | some u =>
    rw [hr] at hgroup
    obtain ⟨rest, hrest⟩ := List.getLast?_eq_some_iff.mp hr
    rw [hrest] at hsplit
    rw [hrest, if_neg (by simp), List.dropLast_concat]
    refine List.Perm.cons_inv (a := u) (hgroup.trans ?_)
    have hmiddle : (rest ++ [u] ++ absorbed below t.1 t.2).Perm (u :: (absorbed below t.1 t.2 ++ rest)) := by
      rw [List.append_assoc]
      exact List.perm_middle.trans (List.perm_append_comm.cons u)
    have hlast : (absorbed below t.1 t.2 ++ [t.1] ++ rest).Perm (t.1 :: (absorbed below t.1 t.2 ++ rest)) := by
      rw [List.append_assoc]
      exact List.perm_middle
    calc t.1 :: ([] ++ t.2) = t.1 :: t.2 := rfl
      _ ~ t.1 :: u :: (absorbed below t.1 t.2 ++ rest) := (hsplit.symm.trans hmiddle).cons t.1
      _ ~ u :: t.1 :: (absorbed below t.1 t.2 ++ rest) := .swap _ _ _
      _ ~ u :: (absorbed below t.1 t.2 ++ [t.1] ++ rest) := hlast.symm.cons u

theorem mem_marks {t : α × List α} {a : α} :
    a ∈ marks below t ↔ a ∈ absorbed below t.1 t.2 ∨ (a = t.1 ∧ rivals below t.1 t.2 ≠ []) := by
  unfold marks
  rw [List.mem_append]
  refine or_congr_right ?_
  split
  · rename_i h
    simp [h]
  · rename_i h
    rw [List.mem_singleton, and_iff_left h]

theorem mem_of_mem_given {t : α × List α} {a : α} (h : a ∈ given below t) : a ∈ t.1 :: t.2 :=
  (group_perm below t.1 t.2 (t.1, [])).subset (List.mem_cons_of_mem _ h)

theorem mem_of_mem_marks {t : α × List α} {a : α} (h : a ∈ marks below t) : a ∈ t.1 :: t.2 := by
  rcases mem_marks.mp h with h | ⟨rfl, -⟩
  · exact List.mem_cons_of_mem _ (mem_absorbed.mp h).1
  · exact List.mem_cons_self

variable (below x) in
/-- One more that is met marks one more. -/
theorem mem_marks_cons (y a : α) (ys : List α) :
    a ∈ marks below (x, y :: ys) ↔ a = (if below x y then x else y) ∨ a ∈ marks below (x, ys) := by
  rw [mem_marks, mem_marks]
  by_cases h : below x y
  · have hrivals : rivals below x (y :: ys) = y :: rivals below x ys := List.filter_cons_of_pos (by simpa using h)
    have habsorbed : absorbed below x (y :: ys) = absorbed below x ys := List.filter_cons_of_neg (by simpa using h)
    rw [if_pos h, hrivals, habsorbed, and_iff_left (List.cons_ne_nil _ _)]
    tauto
  · have hrivals : rivals below x (y :: ys) = rivals below x ys := List.filter_cons_of_neg (by simpa using h)
    have habsorbed : absorbed below x (y :: ys) = y :: absorbed below x ys := List.filter_cons_of_pos (by simpa using h)
    rw [if_neg h, hrivals, habsorbed, List.mem_cons, or_assoc]

end Group

/-! ### All turns -/

section Turns

variable [DecidableEq κ] {key : α → κ} {apart alike below : α → α → Prop} [DecidableRel apart] [DecidableRel alike]
  [DecidableRel below]

omit [DecidableEq κ] in
theorem met_cons (gone : κ → Bool) (x y : α) (ys : List α) : met key apart alike gone x (y :: ys) =
    if gone (key y) then met key apart alike gone x ys
    else if apart x y then []
    else if alike x y then y :: met key apart alike gone x ys
    else met key apart alike gone x ys := by
  unfold met
  by_cases hgone : gone (key y) = true
  · rw [if_pos hgone, List.filter_cons_of_neg (by simpa using hgone)]
  · rw [if_neg hgone, List.filter_cons_of_pos (by simpa using hgone)]
    by_cases hapart : apart x y
    · rw [if_pos hapart, List.takeWhile_cons_of_neg (by simpa using hapart)]
      rfl
    · rw [if_neg hapart, List.takeWhile_cons_of_pos (by simpa using hapart), List.filter_cons]
      simp only [decide_eq_true_eq]

omit [DecidableEq κ] in
/-- It matters only what is gone of those that are met. -/
theorem met_congr {gone gone' : κ → Bool} {ys : List α} (h : ∀ y ∈ ys, gone' (key y) = gone (key y)) (x : α) :
    met key apart alike gone' x ys = met key apart alike gone x ys := by
  have hfilter : (ys.filter fun y => !gone' (key y)) = ys.filter fun y => !gone (key y) :=
    List.filter_congr fun y hy => by rw [h y hy]
  unfold met
  rw [hfilter]

omit [DecidableEq κ] in
theorem met_sublist (gone : κ → Bool) (x : α) (ys : List α) :
    (met key apart alike gone x ys).Sublist (ys.filter fun y => !gone (key y)) :=
  (List.filter_sublist).trans (List.takeWhile_sublist _)

/-- Of members told apart, a part is what remains when one asks for its keys. -/
theorem filter_keys {l l' : List α} (hsub : l'.Sublist l) (hnodup : (l.map key).Nodup) :
    l.filter (fun a => decide (key a ∈ l'.map key)) = l' := by
  induction hsub with
  | slnil => rfl
  | @cons l' l a hsub ih =>
    obtain ⟨ha, hnodup⟩ := List.nodup_cons.mp hnodup
    have hnot : key a ∉ l'.map key := fun hmem => ha ((hsub.map key).subset hmem)
    rw [List.filter_cons_of_neg (by simpa using hnot)]
    exact ih hnodup
  | @cons_cons l' l a hsub ih =>
    obtain ⟨ha, hnodup⟩ := List.nodup_cons.mp hnodup
    rw [List.filter_cons_of_pos (by simp)]
    refine congrArg (a :: ·) (Eq.trans (List.filter_congr fun b hb => ?_) (ih hnodup))
    have hne : key b ≠ key a := fun heq => ha (heq ▸ List.mem_map_of_mem hb)
    simp [hne]

variable (apart alike below) in
/-- **Everything has a turn or is left out**, once. -/
theorem turns_perm : ∀ (l : List α) (gone : κ → Bool), (l.map key).Nodup →
    ((turns key apart alike below gone l).map Prod.fst ++
      (turns key apart alike below gone l).flatMap fun t => absorbed below t.1 t.2).Perm
      (l.filter fun a => !gone (key a))
  | [], _, _ => .refl _
  | x :: xs, gone, hnodup => by
    obtain ⟨-, hnodup⟩ := List.nodup_cons.mp hnodup
    unfold turns
    by_cases hx : gone (key x) = true
    · rw [if_pos hx, List.filter_cons_of_neg (by simpa using hx)]
      exact turns_perm xs gone hnodup
    · rw [if_neg hx, List.filter_cons_of_pos (by simpa using hx), List.map_cons, List.flatMap_cons]
      generalize hys : met key apart alike gone x xs = ys
      have ih := turns_perm xs (leave key below gone x ys) hnodup
      -- what is left out now, and what is there then
      have hsub : (absorbed below x ys).Sublist (xs.filter fun a => !gone (key a)) :=
        (List.filter_sublist).trans (hys ▸ met_sublist gone x xs)
      have hout := filter_keys hsub (hnodup.sublist ((List.filter_sublist).map key))
      have hrest : xs.filter (fun a => !leave key below gone x ys (key a)) =
          (xs.filter fun a => !gone (key a)).filter fun a => !decide (key a ∈ (absorbed below x ys).map key) := by
        rw [List.filter_filter]
        refine List.filter_congr fun a _ => ?_
        unfold leave
        rw [Bool.not_or, Bool.and_comm]
      have hsplit := List.filter_append_perm (fun a => decide (key a ∈ (absorbed below x ys).map key))
        (xs.filter fun a => !gone (key a))
      rw [hout, ← hrest] at hsplit
      rw [List.cons_append]
      exact ((List.perm_append_comm_assoc _ _ _).trans ((ih.append_left _).trans hsplit)).cons x

theorem mem_turn {t : α × List α} : ∀ {l : List α} {gone : κ → Bool}, t ∈ turns key apart alike below gone l →
    (t.1 ∈ l ∧ gone (key t.1) = false) ∧ ∀ y ∈ t.2, (y ∈ l ∧ gone (key y) = false) ∧ alike t.1 y
  | [], _, h => by cases h
  | x :: xs, gone, h => by
    unfold turns at h
    split at h
    · obtain ⟨ht, hmet⟩ := mem_turn h
      exact ⟨ht.imp_left (List.mem_cons_of_mem x), fun y hy =>
        (hmet y hy).imp_left (.imp_left (List.mem_cons_of_mem x))⟩
    · rename_i hx
      rcases List.mem_cons.mp h with rfl | h
      · refine ⟨⟨List.mem_cons_self, Bool.eq_false_iff.mpr hx⟩, fun y hy => ?_⟩
        obtain ⟨hin, hthere⟩ := List.mem_filter.mp ((met_sublist gone x xs).subset hy)
        have halike := (List.mem_filter.mp hy).2
        exact ⟨⟨List.mem_cons_of_mem x hin, by simpa using hthere⟩, by simpa using halike⟩
      · obtain ⟨ht, hmet⟩ := mem_turn h
        have hthere : ∀ {y : α}, y ∈ xs ∧ leave key below gone x (met key apart alike gone x xs) (key y) = false →
            y ∈ x :: xs ∧ gone (key y) = false := by
          rintro y ⟨hy, hleave⟩
          unfold leave at hleave
          exact ⟨List.mem_cons_of_mem x hy, (Bool.or_eq_false_iff.mp hleave).1⟩
        exact ⟨hthere ht, fun y hy => (hmet y hy).imp_left hthere⟩

/-- What is there has a turn or is left out in one. -/
theorem turn_or_absorbed {l : List α} {gone : κ → Bool} (hnodup : (l.map key).Nodup) {a : α} (ha : a ∈ l)
    (hgone : gone (key a) = false) :
    (∃ t ∈ turns key apart alike below gone l, t.1 = a) ∨
      ∃ t ∈ turns key apart alike below gone l, a ∈ absorbed below t.1 t.2 := by
  have hin := (turns_perm apart alike below l gone hnodup).mem_iff.mpr (List.mem_filter.mpr ⟨ha, by rw [hgone]; rfl⟩)
  rcases List.mem_append.mp hin with h | h
  · exact .inl (List.mem_map.mp h)
  · exact .inr (List.mem_flatMap.mp h)

/-- What is in a group is among the members. -/
theorem group_mem {l : List α} {gone : κ → Bool} {t : α × List α} (ht : t ∈ turns key apart alike below gone l) :
    ∀ a ∈ t.1 :: t.2, a ∈ l := by
  intro a ha
  rcases List.mem_cons.mp ha with rfl | ha
  · exact (mem_turn ht).1.1
  · exact ((mem_turn ht).2 a ha).1.1

end Turns

/-! ### When all that is given is marked -/

section Steady

variable (below : α → α → Prop) [DecidableRel below]

/-- Everything has one turn or is left out once, and so has what is met. -/
structure Orderly (T : List (α × List α)) : Prop where
  nodup : (T.map Prod.fst ++ T.flatMap fun t => absorbed below t.1 t.2).Nodup
  met : ∀ t ∈ T, ∀ y ∈ t.2, (∃ t' ∈ T, t'.1 = y) ∨ ∃ t' ∈ T, y ∈ absorbed below t'.1 t'.2

/-- There are never two rivals, and a rival has its turn and no rivals in it. -/
def Steady (T : List (α × List α)) : Prop :=
  ∀ t ∈ T, ∀ y ∈ rivals below t.1 t.2, rivals below t.1 t.2 = [y] ∧ ∃ t' ∈ T, t'.1 = y ∧ rivals below t'.1 t'.2 = []

variable {below}

theorem orderly [DecidableEq κ] {key : α → κ} {apart alike : α → α → Prop} [DecidableRel apart] [DecidableRel alike]
    {l : List α} {gone : κ → Bool} (hnodup : (l.map key).Nodup) :
    Orderly below (turns key apart alike below gone l) where
  nodup := (turns_perm apart alike below l gone hnodup).nodup_iff.mpr
    ((List.Nodup.of_map key hnodup).sublist List.filter_sublist)
  met t ht y hy := by
    obtain ⟨hin, hgone⟩ := ((mem_turn ht).2 y hy).1
    exact turn_or_absorbed hnodup hin hgone

variable (below) in
/-- What is marked has a turn or is left out. -/
theorem marks_subperm : ∀ T : List (α × List α),
    (T.flatMap (marks below)).Subperm (T.map Prod.fst ++ T.flatMap fun t => absorbed below t.1 t.2)
  | [] => .refl _
  | t :: T => by
    rw [List.flatMap_cons, List.flatMap_cons, List.map_cons]
    have hmarks : (marks below t).Subperm (t.1 :: absorbed below t.1 t.2) := by
      have hperm := List.perm_append_singleton t.1 (absorbed below t.1 t.2)
      refine (List.Sublist.subperm ?_).trans hperm.subperm
      unfold marks
      refine List.Sublist.append_left ?_ _
      split
      · exact List.nil_sublist _
      · exact .refl _
    refine ((hmarks.append (marks_subperm T))).trans (List.Perm.subperm ?_)
    exact (List.perm_append_comm_assoc _ _ _).cons t.1

variable {T : List (α × List α)}

namespace Orderly

variable (h : Orderly below T)
include h

/-- Nothing that has a turn is left out. -/
theorem not_absorbed {t t' : α × List α} (ht : t ∈ T) (ht' : t' ∈ T) : t.1 ∉ absorbed below t'.1 t'.2 := fun hin =>
  List.disjoint_of_nodup_append h.nodup (List.mem_map_of_mem ht) (List.mem_flatMap.mpr ⟨t', ht', hin⟩)

/-- Everything has one turn at most. -/
theorem unique {t t' : α × List α} (ht : t ∈ T) (ht' : t' ∈ T) (heq : t.1 = t'.1) : t = t' :=
  List.inj_on_of_nodup_map (List.Nodup.of_append_left h.nodup) ht ht' heq

theorem nodup_marks : (T.flatMap (marks below)).Nodup := by
  obtain ⟨l, hperm, hsub⟩ := marks_subperm below T
  exact hperm.nodup_iff.mp (h.nodup.sublist hsub)

/-- What has a turn without rivals is not marked. -/
theorem not_marked {t : α × List α} (ht : t ∈ T) (hnone : rivals below t.1 t.2 = []) :
    t.1 ∉ T.flatMap (marks below) := by
  intro hin
  obtain ⟨t', ht', hmark⟩ := List.mem_flatMap.mp hin
  rcases mem_marks.mp hmark with habs | ⟨heq, hne⟩
  · exact h.not_absorbed ht ht' habs
  · rw [h.unique ht ht' heq] at hnone
    exact hne hnone

end Orderly

theorem kept_eq (t : α × List α) : kept below t = (rivals below t.1 t.2).getLast?.getD t.1 :=
  group_kept below t.1 t.2 (t.1, [])

theorem given_eq_nil_iff {t : α × List α} : given below t = [] ↔ t.2 = [] := by
  have h := (group_perm below t.1 t.2 (t.1, [])).length_eq
  simp only [List.cons_append, List.nil_append, List.length_cons, Nat.add_right_cancel_iff] at h
  rw [← List.length_eq_zero_iff, ← List.length_eq_zero_iff, ← h]
  rfl

/-- **All that is given is marked, once, and nothing kept is given**, if and only if
the turns are steady. -/
theorem steady_iff (h : Orderly below T) :
    ((T.flatMap (given below)).Nodup ∧ (∀ a, a ∈ T.flatMap (given below) ↔ a ∈ T.flatMap (marks below)) ∧
      ∀ t ∈ T, given below t ≠ [] → kept below t ∉ T.flatMap (given below)) ↔ Steady below T := by
  have hgiven : (T.flatMap (given below)).Perm
      (T.flatMap (marks below) ++ T.flatMap fun t => (rivals below t.1 t.2).dropLast) :=
    (List.Perm.flatMap_left T fun t _ => given_perm t).trans (List.flatMap_append_perm T _ _).symm
  constructor
  · rintro ⟨hG, hsame, hkept⟩ t ht y hy
    -- a rival that is not the last would be given and marked
    have hdrop : (rivals below t.1 t.2).dropLast = [] := by
      refine List.eq_nil_iff_forall_not_mem.mpr fun e he => ?_
      have hE : e ∈ T.flatMap fun t => (rivals below t.1 t.2).dropLast := List.mem_flatMap.mpr ⟨t, ht, he⟩
      have hM := (hsame e).mp (hgiven.mem_iff.mpr (List.mem_append_right _ hE))
      exact List.disjoint_of_nodup_append (hgiven.nodup_iff.mp hG) hM hE
    have hrivals : rivals below t.1 t.2 = [y] := by
      obtain ⟨u, hu⟩ : ∃ u, rivals below t.1 t.2 = [u] := by
        rw [← List.dropLast_append_getLast (List.ne_nil_of_mem hy), hdrop]
        exact ⟨_, rfl⟩
      rw [hu] at hy ⊢
      rw [List.mem_singleton.mp hy]
    have hlast : kept below t = y := by
      rw [kept_eq, hrivals]
      rfl
    have hmet := (mem_rivals.mp hy).1
    have hfree := hkept t ht fun hnil => by
      rw [given_eq_nil_iff.mp hnil] at hmet
      cases hmet
    rw [hlast, hsame] at hfree
    refine ⟨hrivals, ?_⟩
    rcases h.met t ht y hmet with ⟨t', ht', rfl⟩ | ⟨t', ht', habs⟩
    · refine ⟨t', ht', rfl, by_contra fun hne => hfree (List.mem_flatMap.mpr ⟨t', ht', ?_⟩)⟩
      unfold marks
      rw [if_neg hne]
      exact List.mem_append_right _ List.mem_cons_self
    · exact absurd (List.mem_flatMap.mpr ⟨t', ht', List.mem_append_left _ habs⟩) hfree
  · intro hs
    have hdrop : (T.flatMap fun t => (rivals below t.1 t.2).dropLast) = [] := by
      refine List.flatMap_eq_nil_iff.mpr fun t ht => ?_
      cases hr : rivals below t.1 t.2 with
      | nil => rfl
      | cons y ys =>
        have hy : y ∈ rivals below t.1 t.2 := hr ▸ List.mem_cons_self
        rw [← hr, (hs t ht y hy).1]
        rfl
    rw [hdrop, List.append_nil] at hgiven
    refine ⟨hgiven.nodup_iff.mpr h.nodup_marks, fun a => hgiven.mem_iff, fun t ht _ hin => ?_⟩
    -- what is kept has a turn without rivals
    obtain ⟨t', ht', heq, hnone⟩ : ∃ t' ∈ T, t'.1 = kept below t ∧ rivals below t'.1 t'.2 = [] := by
      rw [kept_eq]
      cases hr : (rivals below t.1 t.2).getLast? with
      | none => exact ⟨t, ht, rfl, List.getLast?_eq_none_iff.mp hr⟩
      | some y => exact (hs t ht y (List.mem_of_getLast? hr)).2
    exact h.not_marked ht' hnone (heq ▸ hgiven.mem_iff.mp hin)

/-! ### What stands for the marked -/

variable (below) in
theorem kept_mem (t : α × List α) : kept below t ∈ t.1 :: t.2 := by
  rw [kept_eq]
  cases hr : (rivals below t.1 t.2).getLast? with
  | none => exact List.mem_cons_self
  | some y => exact List.mem_cons_of_mem _ (mem_rivals.mp (List.mem_of_getLast? hr)).1

theorem kept_not_marked {t : α × List α} (h : t.1 ∉ t.2) : kept below t ∉ marks below t := by
  intro hin
  rw [kept_eq] at hin
  cases hr : (rivals below t.1 t.2).getLast? with
  | none =>
    rw [hr] at hin
    rcases mem_marks.mp hin with habs | ⟨-, hne⟩
    · exact h (mem_absorbed.mp habs).1
    · exact hne (List.getLast?_eq_none_iff.mp hr)
  | some y =>
    have hy := mem_rivals.mp (List.mem_of_getLast? hr)
    rw [hr] at hin
    rcases mem_marks.mp hin with habs | ⟨heq, -⟩
    · exact (mem_absorbed.mp habs).2 hy.2
    · exact h (heq ▸ hy.1)

variable (below) in
/-- What has been marked has no turn later and is not met. -/
def Passes (T : List (α × List α)) : Prop :=
  (∀ t ∈ T, t.1 ∉ t.2) ∧ T.Pairwise fun t' t => ∀ a ∈ t.1 :: t.2, a ∉ marks below t'

theorem passes [DecidableEq κ] {key : α → κ} (apart alike : α → α → Prop) [DecidableRel apart] [DecidableRel alike] :
    ∀ (l : List α) (gone : κ → Bool), (l.map key).Nodup → Passes below (turns key apart alike below gone l)
  | [], _, _ => ⟨fun _ h => absurd h List.not_mem_nil, List.Pairwise.nil⟩
  | x :: xs, gone, hnodup => by
    obtain ⟨hx, hnodup⟩ := List.nodup_cons.mp hnodup
    unfold turns
    split
    · exact passes apart alike xs gone hnodup
    · obtain ⟨hself, hpair⟩ := passes apart alike xs (leave key below gone x (met key apart alike gone x xs)) hnodup
      have hin : ∀ y ∈ met key apart alike gone x xs, y ∈ xs := fun y hy =>
        (List.mem_filter.mp ((met_sublist gone x xs).subset hy)).1
      refine ⟨fun t ht => ?_, List.pairwise_cons.mpr ⟨fun t ht a ha hmark => ?_, hpair⟩⟩
      · rcases List.mem_cons.mp ht with rfl | ht
        · exact fun hmet => hx (List.mem_map_of_mem (hin x hmet))
        · exact hself t ht
      · -- a member of a later turn is in the rest, and not gone
        have hthere : a ∈ xs ∧ leave key below gone x (met key apart alike gone x xs) (key a) = false := by
          rcases List.mem_cons.mp ha with rfl | ha
          · exact (mem_turn ht).1
          · exact ((mem_turn ht).2 a ha).1
        rcases mem_marks.mp hmark with habs | ⟨rfl, -⟩
        · have hleave := hthere.2
          unfold leave at hleave
          exact absurd (List.mem_map_of_mem habs) (by simpa using (Bool.or_eq_false_iff.mp hleave).2)
        · exact hx (List.mem_map_of_mem hthere.1)

/-- **What is marked is linked, over members that meet, to something that is not.** -/
theorem marked_leads {R : α → α → Prop} : ∀ {T : List (α × List α)}, Passes below T →
    (∀ t ∈ T, ∀ y ∈ t.2, R t.1 y ∧ R y t.1) → ∀ a ∈ T.flatMap (marks below),
    ∃ b, b ∉ T.flatMap (marks below) ∧ (∃ t ∈ T, b ∈ t.1 :: t.2) ∧ Relation.ReflTransGen R a b
  | [], _, _, _, ha => by cases ha
  | t :: T, ⟨hself, hpair⟩, hR, a, ha => by
    obtain ⟨hlater, hpair⟩ := List.pairwise_cons.mp hpair
    have ih := marked_leads ⟨fun t ht => hself t (List.mem_cons_of_mem _ ht), hpair⟩ fun t ht =>
      hR t (List.mem_cons_of_mem _ ht)
    -- what is found for the rest is found for all
    have hrest : ∀ {c : α},
        (∃ b, b ∉ T.flatMap (marks below) ∧ (∃ t ∈ T, b ∈ t.1 :: t.2) ∧ Relation.ReflTransGen R c b) →
        ∃ b, b ∉ (t :: T).flatMap (marks below) ∧ (∃ t' ∈ t :: T, b ∈ t'.1 :: t'.2) ∧ Relation.ReflTransGen R c b := by
      rintro c ⟨b, hb, ⟨t', ht', hbt⟩, hlead⟩
      refine ⟨b, fun hin => ?_, ⟨t', List.mem_cons_of_mem _ ht', hbt⟩, hlead⟩
      rcases List.mem_append.mp hin with hin | hin
      · exact hlater t' ht' b hbt hin
      · exact hb hin
    rcases List.mem_append.mp ha with ha | ha
    · have hfrom : Relation.ReflTransGen R a t.1 := by
        rcases mem_marks.mp ha with habs | ⟨rfl, -⟩
        · exact .single (hR t List.mem_cons_self a (mem_absorbed.mp habs).1).2
        · exact .refl
      have hto : Relation.ReflTransGen R a (kept below t) := by
        rcases List.mem_cons.mp (kept_mem below t) with heq | hmet
        · rw [heq]
          exact hfrom
        · exact hfrom.tail (hR t List.mem_cons_self _ hmet).1
      by_cases hk : kept below t ∈ T.flatMap (marks below)
      · obtain ⟨b, hb, ht, hlead⟩ := hrest (ih _ hk)
        exact ⟨b, hb, ht, hto.trans hlead⟩
      · refine ⟨kept below t, fun hin => ?_, ⟨t, List.mem_cons_self, kept_mem below t⟩, hto⟩
        rcases List.mem_append.mp hin with hin | hin
        · exact kept_not_marked (hself t List.mem_cons_self) hin
        · exact hk hin
    · exact hrest (ih a ha)

/-! ### What is left of a pair -/

omit [DecidableRel below] in
/-- What passes is among the first that pass, if all before it do. -/
theorem mem_takeWhile {p : α → Bool} {y : α} : ∀ {l : List α}, (l.Pairwise fun z y => p y = true → p z = true) →
    y ∈ l → p y = true → y ∈ l.takeWhile p
  | z :: l, hpair, hy, hp => by
    obtain ⟨hbefore, hpair⟩ := List.pairwise_cons.mp hpair
    rcases List.mem_cons.mp hy with rfl | hy
    · rw [List.takeWhile_cons_of_pos hp]
      exact List.mem_cons_self
    · rw [List.takeWhile_cons_of_pos (hbefore y hy hp)]
      exact List.mem_cons_of_mem z (mem_takeWhile hpair hy hp)

/-- **Of two that are alike one is marked**, unless they are too far apart. -/
theorem apart_of_unmarked [DecidableEq κ] {key : α → κ} (apart alike : α → α → Prop) [DecidableRel apart]
    [DecidableRel alike] {x y : α} (halike : alike x y) : ∀ (l : List α) (gone : κ → Bool), (l.map key).Nodup →
    (l.Pairwise fun z y => ∀ x, apart x z → apart x y) → [x, y].Sublist l →
    gone (key x) = false → gone (key y) = false →
    x ∉ (turns key apart alike below gone l).flatMap (marks below) →
    y ∉ (turns key apart alike below gone l).flatMap (marks below) → apart x y
  | h :: l, gone, hnodup, hmono, hsub, hx, hy, hmx, hmy => by
    obtain ⟨hh, hnodup⟩ := List.nodup_cons.mp hnodup
    have hmono' := (List.pairwise_cons.mp hmono).2
    unfold turns at hmx hmy
    by_cases hgone : gone (key h) = true
    · rw [if_pos hgone] at hmx hmy
      have hsub' : [x, y].Sublist l := by
        rcases List.sublist_cons_iff.mp hsub with hsub | ⟨r, heq, -⟩
        · exact hsub
        · rw [(List.cons.inj heq).1, hgone] at hx
          cases hx
      exact apart_of_unmarked apart alike halike l gone hnodup hmono' hsub' hx hy hmx hmy
    · rw [if_neg hgone, List.flatMap_cons] at hmx hmy
      obtain ⟨hx', hmx⟩ := not_or.mp (List.mem_append.not.mp hmx)
      obtain ⟨hy', hmy⟩ := not_or.mp (List.mem_append.not.mp hmy)
      rcases List.sublist_cons_iff.mp hsub with hsub | ⟨r, heq, hsub⟩
      · -- both are there after the turn
        have hthere : ∀ {a : α}, a ∈ l → gone (key a) = false → a ∉ marks below (h, met key apart alike gone h l) →
            leave key below gone h (met key apart alike gone h l) (key a) = false := by
          intro a ha hg hmark
          unfold leave
          rw [hg, Bool.false_or, decide_eq_false_iff_not]
          intro hin
          obtain ⟨b, hb, heq⟩ := List.mem_map.mp hin
          have hbl : b ∈ l := (List.mem_filter.mp ((met_sublist gone h l).subset (mem_absorbed.mp hb).1)).1
          rw [List.inj_on_of_nodup_map hnodup hbl ha heq] at hb
          exact hmark (List.mem_append_left _ hb)
        exact apart_of_unmarked apart alike halike l _ hnodup hmono' hsub
          (hthere (hsub.subset List.mem_cons_self) hx hx') (hthere (hsub.subset (by simp)) hy hy') hmx hmy
      · -- it is the turn of the first
        obtain ⟨rfl, rfl⟩ := List.cons.inj heq
        have hyl : y ∈ l := hsub.subset List.mem_cons_self
        by_contra hnear
        have hmet : y ∈ met key apart alike gone x l := by
          have hthere : y ∈ l.filter fun a => !gone (key a) := List.mem_filter.mpr ⟨hyl, by rw [hy]; rfl⟩
          refine List.mem_filter.mpr ⟨mem_takeWhile ?_ hthere (by simpa using hnear), by simpa using halike⟩
          refine (hmono'.sublist List.filter_sublist).imp fun {z} {u} hz hu => ?_
          rw [decide_eq_true_iff] at hu ⊢
          exact fun hapart => hu (hz x hapart)
        by_cases hbelow : below x y
        · refine hx' (List.mem_append_right _ ?_)
          rw [if_neg (List.ne_nil_of_mem (mem_rivals.mpr ⟨hmet, hbelow⟩))]
          exact List.mem_cons_self
        · exact hy' (List.mem_append_left _ (mem_absorbed.mpr ⟨hmet, hbelow⟩))

end Steady

end Turns
end Amind
