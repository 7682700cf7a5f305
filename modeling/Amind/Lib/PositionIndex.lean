/-
# Indexes that hold positions

An index beside a list: for each element that has a key, the key with the
element's position. What is looked up under a key are positions, in any order;
read from the highest down they give the elements with that key, last first
(`filterMap_lookup`). Adding the element at the end keeps the index of the list
(`add_entries`), and adding all of them builds it (`foldl_add`).
-/
import Mathlib.Data.List.Sort

namespace Amind
namespace PositionIndex

variable {α K : Type} (key : α → Option K)

/-- The index of a list. -/
def entries (xs : List α) : List (K × ℕ) := xs.zipIdx.filterMap fun p => (key p.1).map (·, p.2)

/-- Enter the element at `pos`, if it has a key. -/
def add (idx : List (K × ℕ)) (pos : ℕ) (x : α) : List (K × ℕ) :=
  match key x with
  | some k => idx ++ [(k, pos)]
  | none => idx

theorem add_entries (xs : List α) (x : α) : add key (entries key xs) xs.length x = entries key (xs ++ [x]) := by
  unfold add entries
  cases h : key x <;> simp [List.zipIdx_append, h]

theorem foldl_add_take (xs : List α) : ∀ n ≤ xs.length,
    (xs.zipIdx.take n).foldl (fun idx p => add key idx p.2 p.1) [] = entries key (xs.take n)
  | 0, _ => rfl
  | n + 1, h => by
    have hget : xs.zipIdx[n]? = some (xs[n], n) := by simp [List.getElem?_eq_getElem h]
    have hlen : (xs.take n).length = n := by simp; omega
    rw [List.take_add_one, List.foldl_append, foldl_add_take xs n (by omega), hget, List.take_add_one,
      List.getElem?_eq_getElem h]
    have := add_entries key (xs.take n) xs[n]
    rw [hlen] at this
    simpa using this

/-- The index built element by element is the index of the list. -/
theorem foldl_add (xs : List α) : xs.zipIdx.foldl (fun idx p => add key idx p.2 p.1) [] = entries key xs := by
  have := foldl_add_take key xs xs.length le_rfl
  rwa [List.take_length, List.take_of_length_le (by simp)] at this

variable [DecidableEq K]

/-- The positions under a key. -/
def lookup (idx : List (K × ℕ)) (k : K) : List ℕ := (idx.filter (·.1 = k)).map (·.2)

theorem lookup_entries (xs : List α) (k : K) : lookup (entries key xs) k = xs.findIdxs (fun x => key x = some k) := by
  unfold lookup entries
  rw [List.findIdxs_eq_filterMap_zipIdx, List.filter_filterMap, List.map_filterMap]
  congr 1
  funext p
  cases h : key p.1 with
  | none => simp
  | some k' => by_cases hk : k' = k <;> simp [hk]

/-- Positions, highest first. -/
def descending (ps : List ℕ) : List ℕ := ps.insertionSort (· ≥ ·)

theorem descending_eq_reverse {ps : List ℕ} (h : ps.Pairwise (· < ·)) : descending ps = ps.reverse := by
  have hsorted : ps.reverse.Pairwise (· ≥ ·) := List.pairwise_reverse.mpr (h.imp Nat.le_of_lt)
  have hperm : (descending ps).Perm ps.reverse := (List.perm_insertionSort _ _).trans (List.reverse_perm ps).symm
  exact hperm.eq_of_pairwise' (List.pairwise_insertionSort _ _) hsorted

theorem filterMap_findIdxs (p : α → Bool) : ∀ (pre xs : List α),
    (xs.findIdxs p pre.length).filterMap (fun i => (pre ++ xs)[i]?) = xs.filter p
  | _, [] => rfl
  | pre, x :: xs => by
    have ih := filterMap_findIdxs p (pre ++ [x]) xs
    simp only [List.length_append, List.length_singleton, List.append_assoc, List.singleton_append] at ih
    rw [List.findIdxs_cons]
    by_cases h : p x = true <;> simp [h, ih]

/-- **Reading through the index.** The elements at the positions under a key,
from the highest position down, are those with that key, last first. -/
theorem filterMap_lookup (xs : List α) (k : K) :
    (descending (lookup (entries key xs) k)).filterMap (fun i => xs[i]?) =
      (xs.filter (fun x => key x = some k)).reverse := by
  rw [lookup_entries, descending_eq_reverse List.pairwise_findIdxs, List.filterMap_reverse]
  exact congrArg List.reverse (filterMap_findIdxs _ [] xs)

end PositionIndex
end Amind
