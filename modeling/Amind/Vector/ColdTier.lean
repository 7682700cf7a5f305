/-
# The cold tier

Vectors that have left the index: a list of entries, and a map from an id to the
position of its entry. Removing an entry moves the last one into its place. The
map and the list stay consistent (`Consistent`), so that appending and removing
change what the tier has for one id and nothing else (`mem_append`, `mem_remove`).
-/
import Amind.Vector.Hnsw

namespace Amind
namespace Vector

open Amind.Core

structure ColdEntry (F : Type) where
  id : UInt64
  vector : List F
  deriving DecidableEq

structure ColdTierIndex (F : Type) where
  dimension : ℕ
  computeDistance : List F → List F → F
  entries : List (ColdEntry F) := []
  idToIndex : AList fun _ : UInt64 => ℕ := ∅

namespace ColdTierIndex

variable {F : Type} (t : ColdTierIndex F)

def contains (id : UInt64) : Bool := (t.idToIndex.lookup id).isSome

def size : ℕ := t.entries.length

def getVector (id : UInt64) : Option (List F) :=
  (t.idToIndex.lookup id).bind fun idx => t.entries[idx]?.map (·.vector)

/-- Add an entry, or replace the vector of the one that is there. -/
def append (id : UInt64) (vector : List F) : ColdTierIndex F :=
  match t.idToIndex.lookup id with
  | some idx => { t with entries := t.entries.modify idx fun e => { e with vector := vector } }
  | none =>
    { t with
      entries := t.entries ++ [⟨id, vector⟩]
      idToIndex := t.idToIndex.insert id t.entries.length }

/-- Remove an entry; the last one takes its place. -/
def remove (id : UInt64) : ColdTierIndex F :=
  match t.idToIndex.lookup id with
  | none => t
  | some idx =>
    match t.entries.getLast? with
    | none => t
    | some last =>
      if idx ≠ t.entries.length - 1 then
        { t with
          entries := (t.entries.set idx last).dropLast
          idToIndex := (t.idToIndex.insert last.id idx).erase id }
      else { t with entries := t.entries.dropLast, idToIndex := t.idToIndex.erase id }

/-- Compare the query with every entry and keep the nearest. -/
def search [Floats F] (query : List F) (topK : ℕ) : List (SearchResult F) :=
  t.entries.foldl
    (fun heap e =>
      let r : SearchResult F := ⟨e.id, t.computeDistance query e.vector⟩
      if heap.length < topK then HNSWIndex.push r heap
      else if heap.getLast?.any (r.distance < ·.distance) then HNSWIndex.push r heap.dropLast
      else heap)
    []

/-! ### The map and the list -/

/-- The map has the position of every entry, and no other. -/
def Consistent : Prop := ∀ id idx, t.idToIndex.lookup id = some idx ↔ t.entries[idx]?.map (·.id) = some id

variable {t}

theorem Consistent.lookup (h : t.Consistent) {idx : ℕ} {e : ColdEntry F} (he : t.entries[idx]? = some e) :
    t.idToIndex.lookup e.id = some idx := by
  rw [h, he]
  rfl

theorem Consistent.entry (h : t.Consistent) {id : UInt64} {idx : ℕ} (hl : t.idToIndex.lookup id = some idx) :
    ∃ v, t.entries[idx]? = some ⟨id, v⟩ := by
  obtain ⟨e, he, hid⟩ := Option.map_eq_some_iff.mp ((h id idx).mp hl)
  exact ⟨e.vector, by rw [he, ← hid]⟩

/-- No entry has the id of another. -/
theorem Consistent.inj (h : t.Consistent) {i j : ℕ} {e e' : ColdEntry F} (he : t.entries[i]? = some e)
    (he' : t.entries[j]? = some e') (hid : e.id = e'.id) : i = j := by
  have hi := h.lookup he
  have hj := h.lookup he'
  rw [hid, hj] at hi
  exact (Option.some.inj hi).symm

theorem Consistent.nodup (h : t.Consistent) : (t.entries.map (·.id)).Nodup := by
  refine List.pairwise_map.mpr (List.pairwise_iff_getElem.mpr fun i j hi hj hij hid => ?_)
  have := h.inj (List.getElem?_eq_getElem hi) (List.getElem?_eq_getElem hj) hid
  omega

theorem contains_iff (h : t.Consistent) {id : UInt64} :
    t.contains id = true ↔ ∃ v, (⟨id, v⟩ : ColdEntry F) ∈ t.entries := by
  rw [contains, Option.isSome_iff_exists]
  constructor
  · rintro ⟨idx, hl⟩
    obtain ⟨v, hv⟩ := h.entry hl
    exact ⟨v, List.mem_of_getElem? hv⟩
  · rintro ⟨v, hv⟩
    obtain ⟨idx, hidx⟩ := List.getElem?_of_mem hv
    exact ⟨idx, h.lookup hidx⟩

theorem consistent_nil (t : ColdTierIndex F) (he : t.entries = []) (hm : t.idToIndex = ∅) : t.Consistent := by
  intro id idx
  rw [he, hm]
  simp

theorem Consistent.append (h : t.Consistent) (id : UInt64) (v : List F) : (t.append id v).Consistent := by
  unfold ColdTierIndex.append
  split
  · -- the ids of the entries are what they were
    rename_i idx _
    intro id' i
    rw [h id' i]
    dsimp only
    rw [List.getElem?_modify]
    cases t.entries[i]? with
    | none => rfl
    | some e =>
      simp only [Option.map_eq_map, Option.map_some]
      split <;> rfl
  · rename_i hl
    intro id' i
    dsimp only
    by_cases hid : id' = id
    · subst hid
      rw [AList.lookup_insert]
      constructor
      · intro hi
        rw [← Option.some.inj hi, List.getElem?_concat_length]
        rfl
      · intro hi
        obtain ⟨e, he, heid⟩ := Option.map_eq_some_iff.mp hi
        rcases lt_or_ge i t.entries.length with hlt | hge
        · rw [List.getElem?_append_left hlt] at he
          have := h.lookup he
          rw [heid, hl] at this
          cases this
        · rw [List.getElem?_append_right hge] at he
          obtain ⟨hlt, -⟩ := List.getElem?_eq_some_iff.mp he
          have : i = t.entries.length := by
            rw [List.length_singleton] at hlt
            omega
          rw [this]
    · rw [AList.lookup_insert_ne hid, h id' i]
      rcases lt_or_ge i t.entries.length with hlt | hge
      · rw [List.getElem?_append_left hlt]
      · rw [List.getElem?_append_right hge, List.getElem?_eq_none hge]
        rcases Nat.eq_zero_or_pos (i - t.entries.length) with hz | hpos
        · rw [hz]
          simp [Ne.symm hid]
        · rw [List.getElem?_eq_none (Nat.succ_le_of_lt hpos)]

/-- What is where once an entry is removed. -/
theorem Consistent.remove_eq (h : t.Consistent) {id : UInt64} {idx : ℕ} (hl : t.idToIndex.lookup id = some idx) :
    (∀ i, (t.remove id).entries[i]? = if i < t.entries.length - 1 then
        (if i = idx then t.entries[t.entries.length - 1]? else t.entries[i]?) else none) ∧
    ∀ id', (t.remove id).idToIndex.lookup id' = if id' = id then none
      else if t.entries[t.entries.length - 1]?.map (·.id) = some id' then some idx else t.idToIndex.lookup id' := by
  obtain ⟨v, hv⟩ := h.entry hl
  obtain ⟨hlt, -⟩ := List.getElem?_eq_some_iff.mp hv
  obtain ⟨last, hlast⟩ : ∃ last, t.entries.getLast? = some last :=
    Option.isSome_iff_exists.mp (by rw [List.getLast?_isSome]; exact List.ne_nil_of_length_pos (by omega))
  have hback : t.entries[t.entries.length - 1]? = some last := by rw [← hlast, List.getLast?_eq_getElem?]
  unfold ColdTierIndex.remove
  rw [hl]
  dsimp only
  rw [hlast, hback]
  dsimp only
  by_cases hidx : idx = t.entries.length - 1
  · -- the entry is the last one itself
    have hid : last.id = id := by
      rw [hidx, hback] at hv
      rw [Option.some.inj hv]
    rw [if_neg (not_not.mpr hidx)]
    refine ⟨fun i => ?_, fun id' => ?_⟩
    · dsimp only
      rw [List.getElem?_dropLast]
      split
      · rw [if_neg (by omega)]
      · rfl
    · dsimp only
      by_cases he : id' = id
      · rw [if_pos he, he, AList.lookup_erase]
      · rw [if_neg he, AList.lookup_erase_ne he, if_neg]
        rw [Option.map_some, hid]
        exact fun hc => he (Option.some.inj hc).symm
  · rw [if_pos hidx]
    refine ⟨fun i => ?_, fun id' => ?_⟩
    · dsimp only
      rw [List.getElem?_dropLast, List.length_set]
      split
      · rw [List.getElem?_set]
        by_cases hi : i = idx
        · rw [if_pos hi.symm, if_pos hlt, if_pos hi]
        · rw [if_neg (Ne.symm hi), if_neg hi]
      · rfl
    · dsimp only
      by_cases he : id' = id
      · rw [if_pos he, he, AList.lookup_erase]
      · rw [if_neg he, AList.lookup_erase_ne he, Option.map_some]
        by_cases hn : id' = last.id
        · rw [if_pos (congrArg some hn.symm), hn, AList.lookup_insert]
        · rw [if_neg fun hc => hn (Option.some.inj hc).symm, AList.lookup_insert_ne hn]

theorem lt_of_place {i : ℕ} {id : UInt64} (hi : t.entries[i]?.map (·.id) = some id) : i < t.entries.length := by
  obtain ⟨e, he, -⟩ := Option.map_eq_some_iff.mp hi
  exact (List.getElem?_eq_some_iff.mp he).1

theorem Consistent.place_inj (h : t.Consistent) {i j : ℕ} {id : UInt64} (hi : t.entries[i]?.map (·.id) = some id)
    (hj : t.entries[j]?.map (·.id) = some id) : i = j :=
  Option.some.inj (((h id i).mpr hi).symm.trans ((h id j).mpr hj))

/-- No entry has the removed id any more. -/
theorem Consistent.remove_none (h : t.Consistent) {id : UInt64} {idx : ℕ} (hl : t.idToIndex.lookup id = some idx)
    (i : ℕ) : (t.remove id).entries[i]?.map (·.id) ≠ some id := by
  have hmem : t.entries[idx]?.map (·.id) = some id := (h id idx).mp hl
  have hpos := lt_of_place hmem
  rw [(h.remove_eq hl).1]
  split
  · split
    · intro hx
      have := h.place_inj hx hmem
      omega
    · intro hx
      exact absurd (h.place_inj hx hmem) ‹_›
  · exact nofun

theorem Consistent.remove (h : t.Consistent) (id : UInt64) : (t.remove id).Consistent := by
  cases hl : t.idToIndex.lookup id with
  | none =>
    unfold ColdTierIndex.remove
    rw [hl]
    exact h
  | some idx =>
    obtain ⟨hentries, hlookup⟩ := h.remove_eq hl
    intro id' i
    rw [hlookup]
    by_cases hid : id' = id
    · subst hid
      rw [if_pos rfl]
      exact iff_of_false nofun (h.remove_none hl i)
    · rw [if_neg hid, hentries]
      have hmem : t.entries[idx]?.map (·.id) = some id := (h id idx).mp hl
      have hne : ∀ {i : ℕ}, t.entries[i]?.map (·.id) = some id' → i ≠ idx := by
        intro i hx heq
        rw [heq, hmem] at hx
        exact hid (Option.some.inj hx).symm
      have hpos := lt_of_place hmem
      split
      · -- the entry that has moved
        rename_i hlast
        constructor
        · intro hi
          rw [← Option.some.inj hi, if_pos (by have := hne hlast; omega), if_pos rfl]
          exact hlast
        · split
          · split
            · rename_i hi
              exact fun _ => congrArg some hi.symm
            · intro hx
              have := h.place_inj hx hlast
              omega
          · exact nofun
      · rename_i hlast
        rw [h id' i]
        constructor
        · intro hx
          have hi : i ≠ t.entries.length - 1 := fun hi => hlast (hi ▸ hx)
          have := lt_of_place hx
          rw [if_pos (by omega), if_neg (hne hx)]
          exact hx
        · split
          · split
            · exact fun hx => absurd hx hlast
            · exact fun hx => hx
          · exact nofun

/-! ### What an operation changes -/

theorem Consistent.mem_append (h : t.Consistent) {id : UInt64} {v : List F} {e : ColdEntry F} :
    e ∈ (t.append id v).entries ↔ e = ⟨id, v⟩ ∨ (e ∈ t.entries ∧ e.id ≠ id) := by
  unfold ColdTierIndex.append
  split
  · rename_i idx hl
    obtain ⟨w, hw⟩ := h.entry hl
    have hmodify : ∀ i, (t.entries.modify idx fun e => { e with vector := v })[i]? =
        if i = idx then some ⟨id, v⟩ else t.entries[i]? := by
      intro i
      rw [List.getElem?_modify]
      by_cases hi : i = idx
      · rw [if_pos hi, hi, hw]
        simp
      · rw [if_neg hi]
        simp [Ne.symm hi]
    constructor
    · intro he
      obtain ⟨i, hi⟩ := List.getElem?_of_mem he
      rw [hmodify] at hi
      split at hi
      · exact .inl (Option.some.inj hi).symm
      · rename_i hne
        exact .inr ⟨List.mem_of_getElem? hi, fun hid => hne (h.inj hi hw hid)⟩
    · rintro (rfl | ⟨he, hid⟩)
      · exact List.mem_of_getElem? (i := idx) (by rw [hmodify, if_pos rfl])
      · obtain ⟨i, hi⟩ := List.getElem?_of_mem he
        refine List.mem_of_getElem? (i := i) ?_
        rw [hmodify, if_neg]
        · exact hi
        · rintro rfl
          rw [hw] at hi
          exact hid (Option.some.inj hi ▸ rfl)
  · rename_i hl
    dsimp only
    rw [List.mem_append, List.mem_singleton, or_comm]
    refine or_congr_right ⟨fun he => ⟨he, ?_⟩, fun he => he.1⟩
    rintro rfl
    obtain ⟨i, hi⟩ := List.getElem?_of_mem he
    rw [h.lookup hi] at hl
    cases hl

theorem Consistent.mem_remove (h : t.Consistent) {id : UInt64} {e : ColdEntry F} :
    e ∈ (t.remove id).entries ↔ e ∈ t.entries ∧ e.id ≠ id := by
  cases hl : t.idToIndex.lookup id with
  | none =>
    have hsame : t.remove id = t := by
      unfold ColdTierIndex.remove
      rw [hl]
    rw [hsame]
    refine ⟨fun he => ⟨he, ?_⟩, fun he => he.1⟩
    rintro rfl
    obtain ⟨i, hi⟩ := List.getElem?_of_mem he
    rw [h.lookup hi] at hl
    cases hl
  | some idx =>
    obtain ⟨hentries, -⟩ := h.remove_eq hl
    obtain ⟨v, hv⟩ := h.entry hl
    obtain ⟨hlt, -⟩ := List.getElem?_eq_some_iff.mp hv
    constructor
    · intro he
      obtain ⟨i, hi⟩ := List.getElem?_of_mem he
      rw [hentries] at hi
      split at hi
      · split at hi
        · refine ⟨List.mem_of_getElem? hi, fun hid => ?_⟩
          have := h.inj hi hv hid
          omega
        · rename_i hne
          exact ⟨List.mem_of_getElem? hi, fun hid => hne (h.inj hi hv hid)⟩
      · cases hi
    · rintro ⟨he, hid⟩
      obtain ⟨i, hi⟩ := List.getElem?_of_mem he
      obtain ⟨hilt, -⟩ := List.getElem?_eq_some_iff.mp hi
      have hne : i ≠ idx := by
        rintro rfl
        rw [hv] at hi
        exact hid (Option.some.inj hi ▸ rfl)
      by_cases hlast : i = t.entries.length - 1
      · refine List.mem_of_getElem? (i := idx) ?_
        rw [hentries, if_pos (by omega), if_pos rfl, ← hlast]
        exact hi
      · refine List.mem_of_getElem? (i := i) ?_
        rw [hentries, if_pos (by omega), if_neg hne]
        exact hi

theorem Consistent.contains_append (h : t.Consistent) {id id' : UInt64} {v : List F} :
    (t.append id v).contains id' = true ↔ id' = id ∨ t.contains id' = true := by
  rw [contains_iff (h.append id v), contains_iff h]
  constructor
  · rintro ⟨w, hw⟩
    rcases h.mem_append.mp hw with he | ⟨he, -⟩
    · exact .inl (congrArg ColdEntry.id he)
    · exact .inr ⟨w, he⟩
  · intro hc
    by_cases hid : id' = id
    · exact ⟨v, h.mem_append.mpr (.inl (by rw [hid]))⟩
    · obtain ⟨w, hw⟩ := hc.resolve_left hid
      exact ⟨w, h.mem_append.mpr (.inr ⟨hw, hid⟩)⟩

theorem Consistent.contains_remove (h : t.Consistent) {id id' : UInt64} :
    (t.remove id).contains id' = true ↔ id' ≠ id ∧ t.contains id' = true := by
  rw [contains_iff (h.remove id), contains_iff h]
  constructor
  · rintro ⟨w, hw⟩
    obtain ⟨he, hid⟩ := h.mem_remove.mp hw
    exact ⟨hid, w, he⟩
  · rintro ⟨hid, w, hw⟩
    exact ⟨w, h.mem_remove.mpr ⟨hw, hid⟩⟩

theorem Consistent.getVector_eq_some (h : t.Consistent) {id : UInt64} {v : List F} :
    t.getVector id = some v ↔ (⟨id, v⟩ : ColdEntry F) ∈ t.entries := by
  constructor
  · intro hv
    obtain ⟨idx, hl, hidx⟩ := Option.bind_eq_some_iff.mp hv
    obtain ⟨w, hw⟩ := h.entry hl
    rw [hw] at hidx
    rw [← Option.some.inj hidx]
    exact List.mem_of_getElem? hw
  · intro he
    obtain ⟨idx, hidx⟩ := List.getElem?_of_mem he
    rw [getVector, h.lookup hidx, Option.bind_some, hidx]
    rfl

/-- Removing takes the vector of one id away. -/
theorem Consistent.getVector_remove (h : t.Consistent) (id id' : UInt64) :
    (t.remove id).getVector id' = if id' = id then none else t.getVector id' := by
  refine Option.ext fun w => ?_
  rw [(h.remove id).getVector_eq_some, h.mem_remove]
  by_cases hid : id' = id
  · rw [if_pos hid]
    simp [hid]
  · rw [if_neg hid, h.getVector_eq_some]
    simp [hid]

/-- What a search of the tier answers is in it. -/
theorem Consistent.contains_of_mem_search [Floats F] (h : t.Consistent) {query : List F} {topK : ℕ}
    {r : SearchResult F} (hr : r ∈ t.search query topK) : t.contains r.id = true := by
  have hfound : ∀ r ∈ t.search query topK, ∃ e ∈ t.entries, r.id = e.id := by
    unfold ColdTierIndex.search
    refine List.foldlRecOn (motive := fun heap : List (SearchResult F) => ∀ r ∈ heap, ∃ e ∈ t.entries, r.id = e.id) _ _
      (fun r hr => absurd hr List.not_mem_nil) ?_
    intro heap ih e he r hr
    dsimp only at hr
    split at hr
    · rcases HNSWIndex.mem_push hr with rfl | hr
      · exact ⟨e, he, rfl⟩
      · exact ih r hr
    · split at hr
      · rcases HNSWIndex.mem_push hr with rfl | hr
        · exact ⟨e, he, rfl⟩
        · exact ih r (List.mem_of_mem_dropLast hr)
      · exact ih r hr
  obtain ⟨e, he, hid⟩ := hfound r hr
  exact (contains_iff h).mpr ⟨e.vector, hid ▸ he⟩

end ColdTierIndex
end Vector
end Amind
