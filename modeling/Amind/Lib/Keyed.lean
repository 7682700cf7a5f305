/-
# Lists of key-value pairs, searched in order

A sorted run is a list of pairs with strictly ascending keys (`Ascending`). A
stack of runs is searched front to back, the first run that has the key
answers (`firstHit`): what a run further back holds for that key is hidden.
-/
import Mathlib.Order.Lattice
import Mathlib.Data.List.Basic
import Mathlib.Data.List.Infix

namespace Amind
namespace Keyed

instance lawfulBEqUInt64 : LawfulBEq UInt64 := inferInstance

/-- `UInt64` in its machine order. -/
instance linearOrderUInt64 : LinearOrder UInt64 where
  le_refl a := UInt64.le_refl a
  le_trans a b c := UInt64.le_trans
  le_antisymm a b := UInt64.le_antisymm
  lt_iff_le_not_ge a b := by rw [UInt64.lt_iff_le_and_ne]; grind
  le_total a b := UInt64.le_total a b
  toDecidableLE := fun a b => UInt64.decLe a b
  toDecidableEq := instDecidableEqUInt64
  toDecidableLT := fun a b => UInt64.decLt a b

/-- `UInt8` in its machine order. -/
instance linearOrderUInt8 : LinearOrder UInt8 where
  le_refl a := UInt8.le_refl a
  le_trans a b c := UInt8.le_trans
  le_antisymm a b := UInt8.le_antisymm
  lt_iff_le_not_ge a b := by rw [UInt8.lt_iff_le_and_ne]; grind
  le_total a b := UInt8.le_total a b
  toDecidableLE := fun a b => UInt8.decLe a b
  toDecidableEq := instDecidableEqUInt8
  toDecidableLT := fun a b => UInt8.decLt a b

section Runs

variable {K V : Type} [LinearOrder K]

/-- The keys of the run ascend strictly. -/
def Ascending (l : List (K × V)) : Prop := l.Pairwise fun a b => a.1 < b.1

theorem Ascending.tail {e : K × V} {l : List (K × V)} (h : Ascending (e :: l)) : Ascending l :=
  List.Pairwise.of_cons h

theorem Ascending.head_lt {e : K × V} {l : List (K × V)} (h : Ascending (e :: l)) :
    ∀ x ∈ l, e.1 < x.1 :=
  (List.pairwise_cons.mp h).1

theorem Ascending.head_le {e : K × V} {l : List (K × V)} (h : Ascending (e :: l)) :
    ∀ x ∈ e :: l, e.1 ≤ x.1 := by
  intro x hx
  rcases List.mem_cons.mp hx with rfl | hx
  · exact le_rfl
  · exact (h.head_lt x hx).le

/-- Set the value of a key in a run. -/
def insertKey (k : K) (v : V) : List (K × V) → List (K × V)
  | [] => [(k, v)]
  | e :: l => if k < e.1 then (k, v) :: e :: l else if k = e.1 then (k, v) :: l else e :: insertKey k v l

theorem mem_insertKey {k : K} {v : V} {x : K × V} : ∀ {l : List (K × V)}, x ∈ insertKey k v l → x = (k, v) ∨ x ∈ l
  | [], h => .inl (List.mem_singleton.mp h)
  | e :: l, h => by
    unfold insertKey at h
    split at h
    · exact List.mem_cons.mp h
    · split at h
      · exact (List.mem_cons.mp h).imp_right (List.mem_cons_of_mem _)
      · rcases List.mem_cons.mp h with h | h
        · exact .inr (h ▸ List.mem_cons_self)
        · exact (mem_insertKey h).imp_right (List.mem_cons_of_mem _)

theorem Ascending.insertKey (k : K) (v : V) : ∀ {l : List (K × V)}, Ascending l → Ascending (insertKey k v l)
  | [], _ => List.pairwise_singleton _ _
  | e :: l, h => by
    unfold Keyed.insertKey
    split
    · rename_i hlt
      exact List.pairwise_cons.mpr ⟨fun x hx => lt_of_lt_of_le hlt (h.head_le x hx), h⟩
    · rename_i hge
      split
      · rename_i heq
        exact List.pairwise_cons.mpr ⟨fun x hx => heq ▸ h.head_lt x hx, h.tail⟩
      · rename_i hne
        have hlt : e.1 < k := lt_of_le_of_ne (not_lt.mp hge) (Ne.symm hne)
        refine List.pairwise_cons.mpr ⟨fun x hx => ?_, h.tail.insertKey k v⟩
        rcases mem_insertKey hx with rfl | hx
        · exact hlt
        · exact h.head_lt x hx

/-- A key above all others goes to the end. -/
theorem insertKey_of_lt {k : K} {v : V} : ∀ {l : List (K × V)}, (∀ x ∈ l, x.1 < k) → insertKey k v l = l ++ [(k, v)]
  | [], _ => rfl
  | e :: l, h => by
    have he : e.1 < k := h e List.mem_cons_self
    unfold insertKey
    rw [if_neg (not_lt_of_gt he), if_neg (ne_of_gt he),
      insertKey_of_lt fun x hx => h x (List.mem_cons_of_mem _ hx)]
    rfl

/-- The run of a list of pairs, the last of a key counts. -/
def ofPairs (l : List (K × V)) : List (K × V) := l.foldl (fun m e => insertKey e.1 e.2 m) []

theorem ascending_ofPairs (l : List (K × V)) : Ascending (ofPairs l) :=
  List.foldlRecOn l _ List.Pairwise.nil fun _ h e _ => h.insertKey e.1 e.2

/-- A run is the run of its pairs. -/
theorem ofPairs_of_ascending {l : List (K × V)} (h : Ascending l) : ofPairs l = l := by
  have hfold : ∀ m, Ascending (m ++ l) → l.foldl (fun m e => insertKey e.1 e.2 m) m = m ++ l := by
    intro m
    induction l generalizing m with
    | nil => simp
    | cons e l ih =>
      intro hm
      have hlt : ∀ x ∈ m, x.1 < e.1 := fun x hx =>
        (List.pairwise_append.mp hm).2.2 x hx e List.mem_cons_self
      rw [List.foldl_cons, insertKey_of_lt hlt, ih h.tail (m ++ [e]) (by simpa using hm)]
      simp
  exact hfold [] h

theorem lookup_cons_ne {e : K × V} {l : List (K × V)} {k : K} (h : k ≠ e.1) :
    (e :: l).lookup k = l.lookup k := by
  obtain ⟨a, v⟩ := e
  have hb : (k == a) = false := by simpa using h
  rw [List.lookup_cons, hb]

theorem lookup_cons_eq {e : K × V} {l : List (K × V)} : (e :: l).lookup e.1 = some e.2 := by
  obtain ⟨a, v⟩ := e
  simp

/-- The key has the value that was set. -/
theorem lookup_insertKey [BEq K] [LawfulBEq K] (k : K) (v : V) : ∀ l : List (K × V), (insertKey k v l).lookup k = some v
  | [] => by rw [insertKey, List.lookup_cons_self]
  | (k', v') :: l => by
    unfold insertKey
    split
    · rw [List.lookup_cons_self]
    · split
      · rw [List.lookup_cons_self]
      · rename_i hne
        have hb : (k == k') = false := beq_eq_false_iff_ne.mpr hne
        rw [List.lookup_cons, hb, lookup_insertKey k v l]

/-- The other keys keep their values. -/
theorem lookup_insertKey_ne [BEq K] [LawfulBEq K] {k k' : K} (h : k' ≠ k) (v : V) :
    ∀ l : List (K × V), (insertKey k v l).lookup k' = l.lookup k'
  | [] => by rw [insertKey, List.lookup_cons, beq_eq_false_iff_ne.mpr h]
  | (i, w) :: l => by
    have hk : (k' == k) = false := beq_eq_false_iff_ne.mpr h
    unfold insertKey
    split
    · rw [List.lookup_cons, hk]
    · split
      · rename_i heq
        have hi : (k' == i) = false := beq_eq_false_iff_ne.mpr fun hki => h (hki.trans heq.symm)
        rw [List.lookup_cons, hk, List.lookup_cons, hi]
      · rw [List.lookup_cons, List.lookup_cons, lookup_insertKey_ne h v l]

/-- The pairs are found under their keys, if no two have the same. -/
theorem lookup_ofPairs [BEq K] [LawfulBEq K] {k : K} {v : V} {l : List (K × V)} (hn : (l.map Prod.fst).Nodup)
    (h : (k, v) ∈ l) : (ofPairs l).lookup k = some v := by
  induction l using List.reverseRecOn with
  | nil => exact absurd h List.not_mem_nil
  | append_singleton l e ih =>
    have hfold : ofPairs (l ++ [e]) = insertKey e.1 e.2 (ofPairs l) := by simp [ofPairs]
    rw [hfold]
    rw [List.map_append, List.nodup_append] at hn
    rcases List.mem_append.mp h with h | h
    · have hne : k ≠ e.1 :=
        hn.2.2 k (List.mem_map_of_mem h) e.1 (List.mem_map_of_mem (List.mem_singleton_self e))
      rw [lookup_insertKey_ne hne, ih hn.1 h]
    · obtain rfl := List.mem_singleton.mp h
      exact lookup_insertKey k v _

theorem lookup_ofPairs_none [BEq K] [LawfulBEq K] {k : K} {l : List (K × V)} (h : ∀ e ∈ l, e.1 ≠ k) :
    (ofPairs l).lookup k = none := by
  induction l using List.reverseRecOn with
  | nil => rfl
  | append_singleton l e ih =>
    have hfold : ofPairs (l ++ [e]) = insertKey e.1 e.2 (ofPairs l) := by simp [ofPairs]
    rw [hfold, lookup_insertKey_ne (h e (by simp)).symm, ih fun x hx => h x (by simp [hx])]

/-- A pair of a run is found under its key. -/
theorem Ascending.lookup [BEq K] [LawfulBEq K] {k : K} {v : V} : ∀ {l : List (K × V)}, Ascending l → (k, v) ∈ l →
    l.lookup k = some v
  | (k', v') :: l, h, hm => by
    rcases List.mem_cons.mp hm with he | hm
    · obtain ⟨rfl, rfl⟩ := Prod.mk.inj he
      rw [List.lookup_cons_self]
    · have hb : (k == k') = false := beq_eq_false_iff_ne.mpr (h.head_lt _ hm).ne'
      rw [List.lookup_cons, hb]
      exact h.tail.lookup hm

theorem lookup_none_of_lt {l : List (K × V)} {k : K} (h : ∀ x ∈ l, k < x.1) : l.lookup k = none := by
  rw [List.lookup_eq_none_iff]
  intro x hx
  simpa using (h x hx).ne

/-- The first run that has the key answers. -/
def firstHit (ls : List (List (K × V))) (k : K) : Option V := ls.findSome? fun l => l.lookup k

@[simp] theorem firstHit_nil (k : K) : firstHit ([] : List (List (K × V))) k = none := rfl

theorem firstHit_cons (l : List (K × V)) (ls : List (List (K × V))) (k : K) :
    firstHit (l :: ls) k = (l.lookup k).or (firstHit ls k) := by
  unfold firstHit
  rw [List.findSome?_cons]
  cases l.lookup k <;> rfl

end Runs

end Keyed
end Amind
