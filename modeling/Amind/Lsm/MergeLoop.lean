/-
# The merge loop of a compaction

`compactLevel` merges its source tables with one cursor a table and a heap of
the cursors' keys: the entry of least key, lowest table index first, is taken
off the heap, its value goes to the writer unless the key is the one before or
the value is empty (a deletion), the cursor moves on, and its next key goes to
the heap. `mergeLoop` is that loop over the cursors and the writer of table
files; a table whose cursor cannot be opened counts as an empty one.

`Yields` says which entries a cursor delivers. `mergeLoop_merges` says that
over cursors that yield the tables the loop adds exactly the entries of
`Keyed.merge` to the writer, and `compactLevel_merge` what these are.
-/
import Mathlib.Data.List.Nodup
import Amind.Lsm.SSTable
import Amind.Lsm.SSTableRoundTrip

namespace Amind
namespace Lsm

/-! ### The heap -/

/-- A cursor in the heap. -/
structure HeapEntry where
  key : Key
  tableIndex : ℕ
  deriving DecidableEq, Repr

namespace HeapEntry

/-- The order of the heap, `operator>`. -/
def after (a b : HeapEntry) : Bool := if a.key ≠ b.key then b.key < a.key else b.tableIndex < a.tableIndex

/-- The top of the heap, and the heap without it. -/
def popTop : List HeapEntry → Option (HeapEntry × List HeapEntry)
  | [] => none
  | h :: hs =>
    match popTop hs with
    | none => some (h, [])
    | some (h', hs') => if h.after h' then some (h', h :: hs') else some (h, h' :: hs')

end HeapEntry

/-! ### The loop -/

structure MergeState where
  cursors : List SSTableCursor
  heap : List HeapEntry
  writer : SSTableWriter
  prevKey : Key
  first : Bool

section Loop

variable (lz : Lz4) (hash : Key → UInt64 → UInt64)

/-- The cursor of a source table, an empty one if the table is corrupted. -/
def openCursor (r : SSTableReader) : SSTableCursor :=
  match r.cursor lz with
  | .ok c => c
  | .error _ => .none

/-- The cursors that stand at an entry. -/
def initialHeap (cursors : List SSTableCursor) : List HeapEntry :=
  (cursors.zipIdx.filter (·.1.valid)).map fun c => ⟨c.1.current.1, c.2⟩

/-- The state before the loop. -/
def mergeStart (expected : UInt64) (sourceTables : List SSTableReader) : MergeState where
  cursors := sourceTables.map (openCursor lz)
  heap := initialHeap (sourceTables.map (openCursor lz))
  writer := .new expected
  prevKey := 0
  first := true

/-- The value goes to the writer, unless the key is the one before or the value
is empty. -/
def writeTop (s : MergeState) (key : Key) (value : Bytes) : Except Exn SSTableWriter :=
  let duplicate := !s.first && key == s.prevKey
  if duplicate = true ∨ value = [] then .ok s.writer else s.writer.add lz hash key value

/-- One turn of the loop, for the top of the heap and what is left of it. -/
def mergeTurn (s : MergeState) (top : HeapEntry) (heap : List HeapEntry) : Except Exn MergeState := do
  let writer ← writeTop lz hash s top.key (s.cursors.getD top.tableIndex .none).current.2
  let cursor ← (s.cursors.getD top.tableIndex .none).next lz
  .ok
    { cursors := s.cursors.set top.tableIndex cursor
      heap := if cursor.valid then ⟨cursor.current.1, top.tableIndex⟩ :: heap else heap
      writer := writer
      prevKey := top.key
      first := false }

/-- The loop, with fuel for its turns. -/
def mergeLoop : ℕ → MergeState → Except Exn MergeState
  | 0, s => .ok s
  | n + 1, s =>
    match HeapEntry.popTop s.heap with
    | none => .ok s
    | some (top, heap) => mergeTurn lz hash s top heap >>= mergeLoop n

/-- The cursor delivers the entries, one by one, and ends. -/
def Yields : List (Key × Bytes) → SSTableCursor → Prop
  | [], c => c.valid = false
  | e :: es, c => c.valid = true ∧ c.current = e ∧ ∃ c', c.next lz = .ok c' ∧ Yields es c'

end Loop

/-! ### The top of the heap -/

namespace HeapEntry

theorem popTop_none : ∀ {hs : List HeapEntry}, popTop hs = none → hs = []
  | [], _ => rfl
  | h :: hs, hn => by
    unfold popTop at hn
    cases hp : popTop hs with
    | none => rw [hp] at hn; cases hn
    | some p =>
      rw [hp] at hn
      dsimp only at hn
      split at hn <;> cases hn

/-- `b` does not come after `a`: it has a greater key, or the same and no lower
index. -/
theorem not_after {a b : HeapEntry} :
    a.after b = false ↔ a.key ≤ b.key ∧ (b.key = a.key → a.tableIndex ≤ b.tableIndex) := by
  unfold after
  by_cases hk : a.key = b.key
  · rw [if_neg (not_not.mpr hk), hk]
    simp
  · rw [if_pos hk, decide_eq_false_iff_not, not_lt]
    exact ⟨fun h => ⟨h, fun he => absurd he.symm hk⟩, fun h => h.1⟩

theorem not_after_trans {a b c : HeapEntry} (hab : a.after b = false) (hbc : b.after c = false) :
    a.after c = false := by
  rw [not_after] at hab hbc ⊢
  refine ⟨hab.1.trans hbc.1, fun hca => ?_⟩
  have hba : b.key = a.key := le_antisymm (hca ▸ hbc.1) hab.1
  exact (hab.2 hba).trans (hbc.2 (hca.trans hba.symm))

theorem after_asymm {a b : HeapEntry} (h : a.after b = true) : b.after a = false := by
  unfold after at h ⊢
  by_cases hk : a.key = b.key
  · rw [if_neg (not_not.mpr hk)] at h
    rw [if_neg (not_not.mpr hk.symm)]
    have hlt : b.tableIndex < a.tableIndex := by simpa using h
    simpa using hlt.le
  · rw [if_pos hk] at h
    rw [if_pos (Ne.symm hk)]
    have hlt : b.key < a.key := by simpa using h
    simpa using hlt.le

/-- The top comes after no other entry, and the rest stays. -/
theorem popTop_some : ∀ {hs : List HeapEntry} {top : HeapEntry} {hs' : List HeapEntry}, popTop hs = some (top, hs') →
    hs.Perm (top :: hs') ∧ ∀ h ∈ hs', top.after h = false
  | [], _, _, h => by cases h
  | h :: hs, top, hs', hp => by
    unfold popTop at hp
    cases hq : popTop hs with
    | none =>
      rw [hq] at hp
      obtain ⟨rfl, rfl⟩ := Prod.mk.inj (Option.some.inj hp)
      rw [popTop_none hq]
      exact ⟨.refl _, fun x hx => absurd hx List.not_mem_nil⟩
    | some q =>
      obtain ⟨top₁, hs₁⟩ := q
      obtain ⟨hperm, hleast⟩ := popTop_some hq
      rw [hq] at hp
      dsimp only at hp
      by_cases ha : h.after top₁ = true
      · rw [if_pos ha] at hp
        obtain ⟨rfl, rfl⟩ := Prod.mk.inj (Option.some.inj hp)
        refine ⟨(hperm.cons h).trans (.swap _ _ _), fun x hx => ?_⟩
        rcases List.mem_cons.mp hx with rfl | hx
        · exact after_asymm ha
        · exact hleast x hx
      · rw [if_neg ha] at hp
        obtain ⟨rfl, rfl⟩ := Prod.mk.inj (Option.some.inj hp)
        have hfirst : h.after top₁ = false := by simpa using ha
        refine ⟨hperm.cons h, fun x hx => ?_⟩
        rcases List.mem_cons.mp hx with rfl | hx
        · exact hfirst
        · exact not_after_trans hfirst (hleast x hx)

end HeapEntry

/-! ### What the loop keeps -/

section Merging

variable {lz : Lz4} {hash : Key → UInt64 → UInt64}

/-- What is left of the tables: the cursors yield it, and the heap has the
front of each table that is not used up. -/
structure Merging (lz : Lz4) (tables : List (List (Key × Bytes))) (s : MergeState) : Prop where
  yields : List.Forall₂ (Yields lz) tables s.cursors
  heap : ∀ h, h ∈ s.heap ↔ ∃ e es, tables[h.tableIndex]? = some (e :: es) ∧ h.key = e.1
  nodup : s.heap.Nodup

/-- The key taken last. -/
def MergeState.passed (s : MergeState) : Option Key := if s.first then none else some s.prevKey

/-- What a deletion is not. -/
abbrev hasValue (v : Bytes) : Bool := !v.isEmpty

theorem yields_at {tables : List (List (Key × Bytes))} {cursors : List SSTableCursor}
    (h : List.Forall₂ (Yields lz) tables cursors) {i : ℕ} {t : List (Key × Bytes)} (ht : tables[i]? = some t) :
    ∃ c, cursors[i]? = some c ∧ Yields lz t c := by
  obtain ⟨hlen, hget⟩ := List.forall₂_iff_get.mp h
  obtain ⟨hi, rfl⟩ := List.getElem?_eq_some_iff.mp ht
  exact ⟨cursors[i], List.getElem?_eq_getElem (hlen ▸ hi), hget i hi (hlen ▸ hi)⟩

theorem yields_set {tables : List (List (Key × Bytes))} {cursors : List SSTableCursor}
    (h : List.Forall₂ (Yields lz) tables cursors) (i : ℕ) {t : List (Key × Bytes)} {c : SSTableCursor}
    (hc : Yields lz t c) : List.Forall₂ (Yields lz) (tables.set i t) (cursors.set i c) := by
  induction h generalizing i with
  | nil => exact .nil
  | cons hd _ ih =>
    cases i with
    | zero => exact .cons hc ‹_›
    | succ i => exact .cons hd (ih i)

theorem Yields.valid_iff {t : List (Key × Bytes)} {c : SSTableCursor} (h : Yields lz t c) :
    c.valid = true ↔ ∃ e es, t = e :: es ∧ c.current = e := by
  cases t with
  | nil =>
    have hv : c.valid = false := h
    simp [hv]
  | cons e es => exact iff_of_true h.1 ⟨e, es, rfl, h.2.1⟩

theorem merging_start {tables : List (List (Key × Bytes))} {rs : List SSTableReader} (expected : UInt64)
    (h : List.Forall₂ (fun t r => Yields lz t (openCursor lz r)) tables rs) :
    Merging lz tables (mergeStart lz expected rs) := by
  have hy : List.Forall₂ (Yields lz) tables (rs.map (openCursor lz)) := List.forall₂_map_right_iff.mpr h
  refine ⟨hy, fun x => ?_, ?_⟩
  · show x ∈ initialHeap _ ↔ _
    simp only [initialHeap, List.mem_map, List.mem_filter, List.mem_zipIdx_iff_getElem?]
    constructor
    · rintro ⟨⟨c, i⟩, ⟨hc, hv⟩, rfl⟩
      have hlt : i < tables.length := by
        obtain ⟨hi, -⟩ := List.getElem?_eq_some_iff.mp hc
        exact hy.length_eq ▸ hi
      obtain ⟨c', hc', hyield⟩ := yields_at hy (List.getElem?_eq_getElem hlt)
      obtain rfl : c' = c := Option.some.inj (hc'.symm.trans hc)
      obtain ⟨e, es, ht, hcur⟩ := hyield.valid_iff.mp hv
      exact ⟨e, es, by rw [List.getElem?_eq_getElem hlt, ht], by rw [hcur]⟩
    · rintro ⟨e, es, ht, hk⟩
      obtain ⟨c, hc, hyield⟩ := yields_at hy ht
      refine ⟨(c, x.tableIndex), ⟨hc, hyield.1⟩, ?_⟩
      rw [hyield.2.1, ← hk]
  · show (initialHeap _).Nodup
    have hidx : ((initialHeap (rs.map (openCursor lz))).map HeapEntry.tableIndex).Nodup := by
      unfold initialHeap
      rw [List.map_map]
      have hsub : (((rs.map (openCursor lz)).zipIdx.filter (·.1.valid)).map Prod.snd).Sublist
          ((rs.map (openCursor lz)).zipIdx.map Prod.snd) := List.filter_sublist.map _
      refine hsub.nodup ?_
      rw [List.zipIdx_map_snd]
      exact List.nodup_range'
    exact List.Nodup.of_map _ hidx

/-- With the tables used up the heap is empty. -/
theorem Merging.heap_nil {tables : List (List (Key × Bytes))} {s : MergeState} (h : Merging lz tables s)
    (hempty : ∀ t ∈ tables, t = []) : s.heap = [] := by
  refine List.eq_nil_iff_forall_not_mem.mpr fun x hx => ?_
  obtain ⟨e, es, ht, -⟩ := (h.heap x).mp hx
  cases hempty _ (List.mem_of_getElem? ht)

theorem Merging.used_up {tables : List (List (Key × Bytes))} {s : MergeState} (h : Merging lz tables s)
    (hempty : ∀ t ∈ tables, t = []) : ∀ c ∈ s.cursors, c.valid = false := by
  intro c hc
  obtain ⟨hlen, hget⟩ := List.forall₂_iff_get.mp h.yields
  obtain ⟨i, hi, rfl⟩ := List.getElem_of_mem hc
  have hyield : Yields lz tables[i] s.cursors[i] := hget i (hlen ▸ hi) hi
  rw [hempty _ (List.getElem_mem _)] at hyield
  exact hyield

/-- The merge of the tables takes the same front. -/
theorem Merging.front {tables : List (List (Key × Bytes))} {s : MergeState} (h : Merging lz tables s)
    {top : HeapEntry} {heap : List HeapEntry} (hp : HeapEntry.popTop s.heap = some (top, heap)) :
    ∃ e es, tables[top.tableIndex]? = some (e :: es) ∧ top.key = e.1 ∧
      Keyed.popTop tables = some (e, tables.set top.tableIndex es) := by
  obtain ⟨hperm, hleast⟩ := HeapEntry.popTop_some hp
  have hmem : ∀ x, x ∈ s.heap ↔ x = top ∨ x ∈ heap := fun x => by rw [hperm.mem_iff, List.mem_cons]
  obtain ⟨e₀, es₀, ht₀, hk₀⟩ := (h.heap top).mp ((hmem top).mpr (.inl rfl))
  cases hq : Keyed.popTop tables with
  | none =>
    have hnil := Keyed.popTop_none hq _ (List.mem_of_getElem? ht₀)
    cases hnil
  | some q =>
    obtain ⟨e, tables'⟩ := q
    obtain ⟨i, es, hi, rfl, hfront⟩ := Keyed.popTop_at hq
    have hi₀ : top.tableIndex = i := by
      obtain ⟨hle, hidx⟩ := hfront _ _ _ ht₀
      rcases (hmem ⟨e.1, i⟩).mp ((h.heap ⟨e.1, i⟩).mpr ⟨e, es, hi, rfl⟩) with heq | hin
      · rw [← heq]
      · obtain ⟨hle', hidx'⟩ := HeapEntry.not_after.mp (hleast _ hin)
        have hkey : e.1 = top.key := le_antisymm (hk₀ ▸ hle) hle'
        exact le_antisymm (hidx' hkey) (hidx (hk₀ ▸ hkey.symm))
    subst hi₀
    obtain ⟨rfl, rfl⟩ := List.cons.inj (Option.some.inj (ht₀.symm.trans hi))
    exact ⟨e₀, es₀, ht₀, hk₀, rfl⟩

/-- A table has one entry in the heap. -/
theorem Merging.ne_top {tables : List (List (Key × Bytes))} {s : MergeState} (h : Merging lz tables s)
    {top : HeapEntry} {heap : List HeapEntry} (hp : HeapEntry.popTop s.heap = some (top, heap)) {x : HeapEntry}
    (hx : x ∈ heap) : x.tableIndex ≠ top.tableIndex := by
  intro heq
  obtain ⟨hperm, -⟩ := HeapEntry.popTop_some hp
  obtain ⟨hnot, -⟩ := List.nodup_cons.mp (hperm.nodup_iff.mp h.nodup)
  obtain ⟨e, es, ht, hk⟩ := (h.heap top).mp (hperm.mem_iff.mpr List.mem_cons_self)
  obtain ⟨e', es', ht', hk'⟩ := (h.heap x).mp (hperm.mem_iff.mpr (List.mem_cons_of_mem _ hx))
  rw [heq, ht] at ht'
  obtain ⟨rfl, rfl⟩ := List.cons.inj (Option.some.inj ht')
  have hxt : x = top := by
    cases x
    cases top
    simp only [HeapEntry.mk.injEq]
    exact ⟨hk'.trans hk.symm, heq⟩
  exact hnot (hxt ▸ hx)

/-- The cursor of the top moves on, and its next key goes to the heap. -/
theorem Merging.advance {tables : List (List (Key × Bytes))} {s : MergeState} (h : Merging lz tables s)
    {top : HeapEntry} {heap : List HeapEntry} (hp : HeapEntry.popTop s.heap = some (top, heap))
    {es : List (Key × Bytes)} {c : SSTableCursor} (hyield : Yields lz es c) (w : SSTableWriter) :
    Merging lz (tables.set top.tableIndex es)
      { cursors := s.cursors.set top.tableIndex c
        heap := if c.valid then ⟨c.current.1, top.tableIndex⟩ :: heap else heap
        writer := w
        prevKey := top.key
        first := false } := by
  obtain ⟨hperm, -⟩ := HeapEntry.popTop_some hp
  have hmem : ∀ x, x ∈ s.heap ↔ x = top ∨ x ∈ heap := fun x => by rw [hperm.mem_iff, List.mem_cons]
  obtain ⟨-, hnodup⟩ := List.nodup_cons.mp (hperm.nodup_iff.mp h.nodup)
  obtain ⟨e₀, es₀, ht₀, -⟩ := (h.heap top).mp ((hmem top).mpr (.inl rfl))
  obtain ⟨hlt, -⟩ := List.getElem?_eq_some_iff.mp ht₀
  refine ⟨yields_set h.yields _ hyield, fun x => ?_, ?_⟩
  · dsimp only
    by_cases hx : x.tableIndex = top.tableIndex
    · rw [hx, List.getElem?_set_self hlt]
      have hxheap : x ∉ heap := fun hin => h.ne_top hp hin hx
      by_cases hv : c.valid = true
      · obtain ⟨e, es', rfl, hcur⟩ := hyield.valid_iff.mp hv
        rw [if_pos hv, List.mem_cons, or_iff_left hxheap, hcur]
        constructor
        · rintro rfl
          exact ⟨e, es', rfl, rfl⟩
        · rintro ⟨e₁, es₁, he, hk⟩
          obtain ⟨rfl, rfl⟩ := List.cons.inj (Option.some.inj he)
          cases x
          simp only [HeapEntry.mk.injEq]
          exact ⟨hk, hx⟩
      · rw [if_neg hv]
        refine iff_of_false hxheap ?_
        rintro ⟨e₁, es₁, he, -⟩
        rw [Option.some.inj he] at hyield
        exact hv hyield.1
    · rw [List.getElem?_set_ne (Ne.symm hx), ← h.heap x, hmem x]
      have hxtop : x ≠ top := fun heq => hx (by rw [heq])
      rw [or_iff_right hxtop]
      split
      · rw [List.mem_cons]
        exact or_iff_right fun heq => hx (by rw [heq])
      · rfl
  · dsimp only
    split
    · exact List.nodup_cons.mpr ⟨fun hin => h.ne_top hp hin rfl, hnodup⟩
    · exact hnodup

theorem writeTop_eq (hash : Key → UInt64 → UInt64) (s : MergeState) (key : Key) (value : Bytes) :
    writeTop lz hash s key value =
      if s.passed = some key ∨ hasValue value = false then .ok s.writer else s.writer.add lz hash key value := by
  refine if_congr ?_ rfl rfl
  unfold MergeState.passed hasValue
  cases hf : s.first with
  | true => simp
  | false => simp [@eq_comm _ s.prevKey]

/-- A turn takes what the merge of the tables takes. -/
theorem Merging.turn (hash : Key → UInt64 → UInt64) {tables : List (List (Key × Bytes))} {s : MergeState}
    (h : Merging lz tables s) {top : HeapEntry} {heap : List HeapEntry}
    (hp : HeapEntry.popTop s.heap = some (top, heap)) :
    ∃ e tables', ∃ s' : SSTableWriter → MergeState, Keyed.popTop tables = some (e, tables') ∧
      (∀ w : SSTableWriter, Merging lz tables' (s' w) ∧ (s' w).writer = w ∧ (s' w).passed = some e.1) ∧
      mergeTurn lz hash s top heap =
        ((if s.passed = some e.1 ∨ hasValue e.2 = false then .ok s.writer
          else s.writer.add lz hash e.1 e.2) >>= fun w => .ok (s' w)) := by
  obtain ⟨e, es, ht, hk, hq⟩ := h.front hp
  obtain ⟨c, hc, -, hcur, c', hnext, hyield⟩ := yields_at h.yields ht
  have hget : s.cursors.getD top.tableIndex .none = c := by
    rw [List.getD_eq_getElem?_getD, hc, Option.getD_some]
  refine ⟨e, _, _, hq, fun w => ⟨h.advance hp hyield w, rfl, congrArg some hk⟩, ?_⟩
  unfold mergeTurn
  rw [hget, hcur, hk, writeTop_eq]
  cases (if s.passed = some e.1 ∨ hasValue e.2 = false then .ok s.writer else s.writer.add lz hash e.1 e.2) with
  | error x => rfl
  | ok w => rw [ok_bind, ok_bind, hnext, ok_bind]

/-- **The loop adds the merge of the tables to the writer**, and ends with all
cursors used up, if no addition throws. -/
theorem mergeLoop_merges : ∀ (n : ℕ) {tables : List (List (Key × Bytes))} {s : MergeState},
    Merging lz tables s → Keyed.total tables ≤ n →
    match s.writer.addAll lz hash (Keyed.mergeLoop hasValue n tables s.passed) with
    | .error x => mergeLoop lz hash n s = .error x
    | .ok w => ∃ s', mergeLoop lz hash n s = .ok s' ∧ s'.writer = w ∧ s'.heap = [] ∧
        ∀ c ∈ s'.cursors, c.valid = false
  | 0, tables, s, h, hn => by
    have hempty : ∀ t ∈ tables, t = [] := Keyed.eq_nil_of_total (Nat.le_zero.mp hn)
    refine ⟨s, rfl, rfl, h.heap_nil hempty, h.used_up hempty⟩
  | n + 1, tables, s, h, hn => by
    unfold mergeLoop Keyed.mergeLoop
    cases hp : HeapEntry.popTop s.heap with
    | none =>
      have hheap := HeapEntry.popTop_none hp
      have hempty : ∀ t ∈ tables, t = [] := by
        intro t ht
        obtain ⟨i, hi⟩ := List.getElem?_of_mem ht
        cases t with
        | nil => rfl
        | cons e es =>
          have hin := (h.heap ⟨e.1, i⟩).mpr ⟨e, es, hi, rfl⟩
          rw [hheap] at hin
          cases hin
      have hnone : Keyed.popTop tables = none := by
        cases hq : Keyed.popTop tables with
        | none => rfl
        | some q =>
          obtain ⟨i, c, hi, -⟩ := Keyed.popTop_at hq
          cases hempty _ (List.mem_of_getElem? hi)
      rw [hnone]
      exact ⟨s, rfl, rfl, hheap, h.used_up hempty⟩
    | some q =>
      obtain ⟨top, heap⟩ := q
      obtain ⟨e, tables', s', hq, hs', hturn⟩ := h.turn hash hp
      have hn' : Keyed.total tables' ≤ n := by
        have hfewer := Keyed.popTop_total hq
        omega
      rw [hq]
      dsimp only
      rw [hturn]
      have hgo : ∀ w : SSTableWriter,
          match w.addAll lz hash (Keyed.mergeLoop hasValue n tables' (some e.1)) with
          | .error x => mergeLoop lz hash n (s' w) = .error x
          | .ok w' => ∃ s₁, mergeLoop lz hash n (s' w) = .ok s₁ ∧ s₁.writer = w' ∧ s₁.heap = [] ∧
              ∀ c ∈ s₁.cursors, c.valid = false := by
        intro w
        obtain ⟨hm, hw, hpassed⟩ := hs' w
        have ih := mergeLoop_merges n hm hn'
        rw [hw, hpassed] at ih
        exact ih
      by_cases hskip : s.passed = some e.1 ∨ hasValue e.2 = false
      · rw [if_pos hskip, if_pos hskip, ok_bind, ok_bind]
        exact hgo s.writer
      · rw [if_neg hskip, if_neg hskip, SSTableWriter.addAll]
        cases hadd : s.writer.add lz hash e.1 e.2 with
        | error x => rfl
        | ok w =>
          rw [ok_bind, ok_bind, ok_bind]
          exact hgo w

/-- What the loop writes is the table `SSTable.mergeTables` stands for. -/
theorem mergeLoop_mergeTables (hash : Key → UInt64 → UInt64) (expected : UInt64) {ts : List SSTable}
    {rs : List SSTableReader}
    (h : List.Forall₂ (fun t r => Yields lz t (openCursor lz r)) (ts.map SSTable.entries) rs) :
    match (SSTableWriter.new expected).addAll lz hash (SSTable.mergeTables ts).entries with
    | .error x => mergeLoop lz hash (Keyed.total (ts.map SSTable.entries)) (mergeStart lz expected rs) = .error x
    | .ok w => ∃ s, mergeLoop lz hash (Keyed.total (ts.map SSTable.entries)) (mergeStart lz expected rs) = .ok s ∧
        s.writer = w ∧ s.heap = [] ∧ ∀ c ∈ s.cursors, c.valid = false :=
  mergeLoop_merges _ (merging_start expected h) le_rfl

/-! ### The writer's order check -/

/-- What `add` throws after `finish`, or for a key that is not above the one
before. -/
def Exn.OfOrder (x : Exn) : Prop := x.kind = .logicError ∨ x.kind = .invalidArgument

theorem insertEnd_error {a b : Bytes} {x : Exn} (h : insertEnd a b = .error x) : x.kind = .lengthError := by
  unfold insertEnd at h
  split at h
  · rw [← Except.error.inj h]
  · cases h

theorem finish_error {b : BlockBuilder} {x : Exn} (h : b.finish lz = .error x) : x.kind = .runtimeError := by
  unfold BlockBuilder.finish at h
  dsimp only at h
  split at h
  · rw [← Except.error.inj h]
  · split at h
    · rw [← Except.error.inj h]
    · cases h

/-- A flush of the block fails only for want of room or in the compression,
and changes nothing the order check reads. -/
theorem flushDataBlock_cases (lz : Lz4) (w : SSTableWriter) :
    (∃ w', w.flushDataBlock lz = .ok w' ∧ w'.finished = w.finished ∧ w'.lastKey = w.lastKey) ∨
      ∃ x, w.flushDataBlock lz = .error x ∧ ¬ x.OfOrder := by
  unfold SSTableWriter.flushDataBlock
  split
  · exact .inl ⟨w, rfl, rfl, rfl⟩
  · cases hf : w.blockBuilder.finish lz with
    | error x => exact .inr ⟨x, rfl, by rw [Exn.OfOrder, finish_error hf]; decide⟩
    | ok compressed =>
      rw [ok_bind]
      cases hi : insertEnd w.fileBuffer compressed with
      | error x => exact .inr ⟨x, rfl, by rw [Exn.OfOrder, insertEnd_error hi]; decide⟩
      | ok fileBuffer => exact .inl ⟨_, rfl, rfl, rfl⟩

theorem add_cases (lz : Lz4) (hash : Key → UInt64 → UInt64) {w : SSTableWriter} {key : Key} (value : Bytes)
    (hfin : w.finished = false)
    (hkey : 0 < w.entryCount → w.lastKey < key) :
    (∃ w', w.add lz hash key value = .ok w' ∧ w'.finished = false ∧ w'.lastKey = key) ∨
      ∃ x, w.add lz hash key value = .error x ∧ ¬ x.OfOrder := by
  unfold SSTableWriter.add
  rw [if_neg (by rw [hfin]; decide), if_neg fun h => absurd (hkey h.1) (not_lt.mpr h.2)]
  unfold BloomFilter.add BloomFilter.checkBits
  by_cases hbits : w.bloomFilter.numBits = 0 ∧ 0 < w.bloomFilter.numHashFuncs
  · rw [if_pos hbits]
    refine .inr ⟨_, rfl, ?_⟩
    rintro (h | h) <;> cases h
  · rw [if_neg hbits]
    dsimp only
    rw [ok_bind]
    split
    · rcases flushDataBlock_cases lz (w.put (w.bloomFilter.put hash key) key value) with ⟨w', hw', hf, hl⟩ | hx
      · exact .inl ⟨w', hw', hf.trans hfin, hl⟩
      · exact .inr hx
    · exact .inl ⟨_, rfl, hfin, rfl⟩

/-- Ascending keys pass the order check, all of them. -/
theorem addAll_error : ∀ {entries : List (Key × Bytes)} {w : SSTableWriter} {x : Exn}, w.finished = false →
    Keyed.Ascending entries → (0 < w.entryCount → ∀ e ∈ entries, w.lastKey < e.1) →
    w.addAll lz hash entries = .error x → ¬ x.OfOrder
  | [], _, _, _, _, _, h => by cases h
  | e :: entries, w, x, hfin, hasc, hkey, h => by
    rw [SSTableWriter.addAll] at h
    rcases add_cases lz hash e.2 hfin fun hpos => hkey hpos e List.mem_cons_self with
      ⟨w', hw', hfin', hlast⟩ | ⟨y, hy, hnot⟩
    · rw [hw', ok_bind] at h
      exact addAll_error hfin' hasc.tail (fun _ e' he' => hlast ▸ hasc.head_lt e' he') h
    · rw [hy, error_bind] at h
      exact Except.error.inj h ▸ hnot

/-! ### Cursors of table files -/

theorem yields_of_stands {r : SSTableReader} {bs : List (List (Key × Bytes))} (h : r.Holds lz bs) :
    ∀ (k n : ℕ) {c : SSTableCursor}, bs.flatten.length ≤ n + k →
      (Stands r bs c n ∨ bs.flatten.length ≤ n ∧ c.valid = false) → Yields lz (bs.flatten.drop n) c
  | k, n, c, _, .inr ⟨hend, hvalid⟩ => by
    rw [List.drop_of_length_le hend]
    exact hvalid
  | k, n, c, hk, .inl hstands => by
    have hcur := hstands.current
    obtain ⟨hlt, -⟩ := List.getElem?_eq_some_iff.mp hcur
    obtain ⟨c', hnext, hc'⟩ := h.next hstands
    cases k with
    | zero => exact absurd hk (Nat.not_le.mpr hlt)
    | succ k =>
      rw [List.drop_eq_getElem?_toList_append, hcur]
      exact ⟨hstands.valid, rfl, c', hnext, yields_of_stands h k (n + 1) (by omega) hc'⟩

/-- The cursor of a table file yields the table's entries. -/
theorem SSTableReader.Holds.yields {r : SSTableReader} {bs : List (List (Key × Bytes))} (h : r.Holds lz bs) :
    Yields lz bs.flatten (openCursor lz r) := by
  obtain ⟨c, hc, hat⟩ := h.cursorAt 0
  have hopen : openCursor lz r = c := by
    unfold openCursor
    rw [show r.cursor lz = .ok c from hc]
  rw [hopen]
  exact yields_of_stands h _ 0 (Nat.le_add_left _ _) hat

/-! ### What is written -/

/-- The lowest table that has the key has it with the value. -/
def LowestHolds (tables : List (List (Key × Bytes))) (k : Key) (v : Bytes) : Prop :=
  ∃ (i : ℕ) (t : List (Key × Bytes)), tables[i]? = some t ∧ (k, v) ∈ t ∧
    ∀ j < i, ∀ t' : List (Key × Bytes), tables[j]? = some t' → ∀ e ∈ t', e.1 ≠ k

theorem firstHit_eq_some {tables : List (List (Key × Bytes))} (hasc : ∀ t ∈ tables, Keyed.Ascending t) {k : Key}
    {v : Bytes} : Keyed.firstHit tables k = some v ↔ LowestHolds tables k v := by
  unfold LowestHolds
  induction tables with
  | nil => simp
  | cons t tables ih =>
    have ih' := ih fun t' ht' => hasc t' (List.mem_cons_of_mem _ ht')
    have ht := hasc t List.mem_cons_self
    rw [Keyed.firstHit_cons]
    cases hl : t.lookup k with
    | some v' =>
      have hmem : (k, v') ∈ t := by
        obtain ⟨l₁, l₂, rfl, -⟩ := List.lookup_eq_some_iff.mp hl
        exact List.mem_append_right _ List.mem_cons_self
      rw [Option.some_or]
      constructor
      · intro h
        obtain rfl := Option.some.inj h
        exact ⟨0, t, rfl, hmem, fun j hj => absurd hj (Nat.not_lt_zero j)⟩
      · rintro ⟨i, t', hi, hm, hnone⟩
        cases i with
        | zero =>
          obtain rfl : t = t' := Option.some.inj hi
          rw [← hl, ht.lookup hm]
        | succ i => exact absurd rfl (hnone 0 (Nat.succ_pos i) t rfl (k, v') hmem)
    | none =>
      have hne : ∀ e ∈ t, e.1 ≠ k := fun e he heq => by
        have hk := List.lookup_eq_none_iff.mp hl e he
        simp [heq] at hk
      rw [Option.none_or, ih']
      constructor
      · rintro ⟨i, t', hi, hm, hnone⟩
        refine ⟨i + 1, t', hi, hm, fun j hj t₁ ht₁ => ?_⟩
        cases j with
        | zero => exact Option.some.inj ht₁ ▸ hne
        | succ j => exact hnone j (Nat.lt_of_succ_lt_succ hj) t₁ ht₁
      · rintro ⟨i, t', hi, hm, hnone⟩
        cases i with
        | zero =>
          obtain rfl : t = t' := Option.some.inj hi
          exact absurd rfl (hne _ hm)
        | succ i => exact ⟨i, t', hi, hm, fun j hj => hnone (j + 1) (Nat.succ_lt_succ hj)⟩

end Merging

/-- **The merge loop of a compaction.** Over source tables whose cursors yield
ascending entries the loop, given the turns for all of them, adds a list of
ascending keys to the writer, so that no addition fails the writer's order
check; a key is in the list exactly if the lowest table that has it holds a
value for it that is not empty, with this value; and the loop ends with every
cursor used up. -/
theorem compactLevel_merge (lz : Lz4) (hash : Key → UInt64 → UInt64) (expected : UInt64)
    (sourceTables : List SSTableReader) (tables : List (List (Key × Bytes)))
    (hy : List.Forall₂ (fun t r => Yields lz t (openCursor lz r)) tables sourceTables)
    (hasc : ∀ t ∈ tables, Keyed.Ascending t) (n : ℕ) (hn : Keyed.total tables ≤ n) :
    ∃ out : List (Key × Bytes), Keyed.Ascending out ∧
      (∀ k v, (k, v) ∈ out ↔ LowestHolds tables k v ∧ v ≠ []) ∧
      (∀ x, (SSTableWriter.new expected).addAll lz hash out = .error x → ¬ x.OfOrder) ∧
      match (SSTableWriter.new expected).addAll lz hash out with
      | .error x => mergeLoop lz hash n (mergeStart lz expected sourceTables) = .error x
      | .ok w => ∃ s, mergeLoop lz hash n (mergeStart lz expected sourceTables) = .ok s ∧ s.writer = w ∧ s.heap = [] ∧
          ∀ c ∈ s.cursors, c.valid = false := by
  have habove := Keyed.above_none tables
  have hout := (Keyed.mergeLoop_ascending hasValue n tables none hasc habove).1
  refine ⟨Keyed.mergeLoop hasValue n tables none, hout, fun k v => ?_, fun x => ?_, ?_⟩
  · have hlookup := Keyed.lookup_mergeLoop hasValue n tables none hn hasc habove k
    rw [if_neg (by simp)] at hlookup
    have hmem : (k, v) ∈ Keyed.mergeLoop hasValue n tables none ↔
        (Keyed.mergeLoop hasValue n tables none).lookup k = some v := by
      refine ⟨hout.lookup, fun h => ?_⟩
      obtain ⟨l₁, l₂, heq, -⟩ := List.lookup_eq_some_iff.mp h
      rw [heq]
      exact List.mem_append_right _ List.mem_cons_self
    rw [hmem, hlookup, Option.filter_eq_some_iff, firstHit_eq_some hasc]
    simp [hasValue]
  · exact addAll_error rfl hout fun h => absurd h (Nat.lt_irrefl 0)
  · exact mergeLoop_merges n (merging_start expected hy) hn

/-- A table file of one block. -/
def oneBlock (entries : List (Key × Bytes)) : SSTableReader where
  data := encodeBlock literals entries
  footer := SSTableWriter.footer 0 0 0 entries.length
  indexEntries := [⟨firstKey entries, 0, (encodeBlock literals entries).length⟩]
  bloomFilter := .new 1

/-- The newer table has deleted key 1. -/
theorem compactLevel_merge_deleted :
    ∃ out : List (Key × Bytes), Keyed.Ascending out ∧
      (∀ k v, (k, v) ∈ out ↔ LowestHolds [[(1, [])], [(1, [7]), (2, [8])]] k v ∧ v ≠ []) ∧
      (∀ x, (SSTableWriter.new 3).addAll literals xxh64 out = .error x → ¬ x.OfOrder) ∧
      match (SSTableWriter.new 3).addAll literals xxh64 out with
      | .error x => mergeLoop literals xxh64 3
          (mergeStart literals 3 [oneBlock [(1, [])], oneBlock [(1, [7]), (2, [8])]]) = .error x
      | .ok w => ∃ s, mergeLoop literals xxh64 3
          (mergeStart literals 3 [oneBlock [(1, [])], oneBlock [(1, [7]), (2, [8])]]) = .ok s ∧ s.writer = w ∧
          s.heap = [] ∧ ∀ c ∈ s.cursors, c.valid = false :=
  compactLevel_merge literals xxh64 3 [oneBlock [(1, [])], oneBlock [(1, [7]), (2, [8])]]
    [[(1, [])], [(1, [7]), (2, [8])]]
    (.cons ⟨rfl, rfl, _, rfl, rfl⟩ (.cons ⟨rfl, rfl, _, rfl, rfl, rfl, _, rfl, rfl⟩ .nil))
    (fun t ht => by
      rcases List.mem_pair.mp ht with rfl | rfl
      · exact List.pairwise_singleton _ _
      · exact List.pairwise_pair.mpr (by decide)) 3 le_rfl

end Lsm
end Amind
