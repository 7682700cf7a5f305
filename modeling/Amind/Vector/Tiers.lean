/-
# The index with its cold tier

An index may have a cold tier. Vectors move there by request or when the index is
above its capacity: the node is marked and its vector appended to the tier. A
search looks into both and keeps the nearer answer of each id. An id that is
inserted leaves the tier, but only at the end of the insertion of a new node:
one that is in the graph already and the first of an empty graph return before.
And removing an id looks at the graph alone.

So an id can be in both, and one that is removed can stay in the tier.
`exclusive_iff` says exactly when neither happens: no id that the tier has is
removed, or inserted while it is in the graph or the graph is empty.
-/
import Mathlib.Data.List.Sort
import Amind.Lib.Run
import Amind.Vector.ColdTier

namespace Amind
namespace Vector

open Amind.Core

structure TieredIndex (F : Type) where
  hot : HNSWIndex F
  cold : Option (ColdTierIndex F) := none
  hotCapacity : ℕ := 50000
  /-- What the eviction ratio makes of a number of vectors. -/
  evictCount : ℕ → ℕ

namespace TieredIndex

variable {F : Type} (x : TieredIndex F)

/-- The cold tier has the id. -/
def inCold (id : UInt64) : Bool := x.cold.any (·.contains id)

variable [Floats F]

/-- Whether an insertion goes through to its end, where the id leaves the tier. -/
def insertsNode (id : UInt64) (vector : List F) : Bool :=
  vector.length = x.hot.config.dimension ∧ (x.hot.getNode id).isNone ∧ x.hot.nodes.keys ≠ []

def insert (id : UInt64) (vector : List F) (newLevel : ℕ) : TieredIndex F :=
  { x with
    hot := x.hot.insert id vector newLevel
    cold := if x.insertsNode id vector then x.cold.map (·.remove id) else x.cold }

def remove (id : UInt64) : TieredIndex F := { x with hot := x.hot.remove id }

def softDelete (id : UInt64) : TieredIndex F := { x with hot := x.hot.softDelete id }

/-- Move the vector of a node to the tier, and mark the node. -/
def relegate (x : TieredIndex F) (id : UInt64) : TieredIndex F :=
  match x.hot.getNode id with
  | none => x
  | some n => if n.deleted then x else { x with hot := x.hot.remove id, cold := x.cold.map (·.append id n.vector) }

def relegateToCold (ids : List UInt64) : TieredIndex F := if x.cold.isNone then x else ids.foldl relegate x

/-- The ids of the graph that are not removed, those accessed longest ago first.
Nothing records an access, so the smallest first. -/
def evictionCandidates : List UInt64 := (x.hot.nodes.keys.filter x.hot.contains).insertionSort (· ≤ ·)

def evictCold : TieredIndex F :=
  if x.cold.isNone then x
  else if x.hot.activeCount ≤ x.hotCapacity then x
  else (x.evictionCandidates.take (x.evictCount x.hot.activeCount)).foldl relegate x

/-! ### Searching both -/

/-- Keep the nearer answer of an id. -/
def keepCloser (best : List (SearchResult F)) (r : SearchResult F) : List (SearchResult F) :=
  if best.any (·.id = r.id) then best.map fun y => if y.id = r.id ∧ r.distance < y.distance then r else y
  else best ++ [r]

def mergeResults (hot cold : List (SearchResult F)) (topK : ℕ) : List (SearchResult F) :=
  (((hot ++ cold).foldl keepCloser []).foldl (fun sorted r => HNSWIndex.push r sorted) []).take topK

def search (query : List F) (topK : ℕ) : List (SearchResult F) :=
  let candidates := x.hot.search query topK
  if query.length ≠ x.hot.config.dimension then []
  else if x.hot.nodes.keys = [] ∨ x.hot.activeCount = 0 then []
  else
    match x.cold with
    | none => candidates
    | some t =>
      if t.size = 0 then candidates
      else if t.search query topK = [] then candidates else mergeResults candidates (t.search query topK) topK

/-! ### What is where -/

/-- The graph or the tier has the id. -/
def Holds (id : UInt64) : Prop := x.hot.contains id = true ∨ x.inCold id = true

/-- No id is in both. -/
def Exclusive : Prop := ∀ id, x.hot.contains id = true → x.inCold id = false

omit [Floats F] in
/-- There is a cold tier, and it is consistent. -/
structure Kept : Prop where
  rooted : x.hot.Rooted
  cold : ∃ t, x.cold = some t ∧ t.Consistent

variable {x}

theorem mem_keepCloser {best : List (SearchResult F)} {r y : SearchResult F} (h : y ∈ keepCloser best r) :
    y = r ∨ y ∈ best := by
  unfold keepCloser at h
  split at h
  · obtain ⟨z, hz, rfl⟩ := List.mem_map.mp h
    split
    · exact .inl rfl
    · exact .inr hz
  · rcases List.mem_append.mp h with h | h
    · exact .inr h
    · exact .inl (List.mem_singleton.mp h)

theorem mem_mergeResults {hot cold : List (SearchResult F)} {topK : ℕ} {y : SearchResult F}
    (h : y ∈ mergeResults hot cold topK) : y ∈ hot ∨ y ∈ cold := by
  have hsorted : ∀ (l acc : List (SearchResult F)), y ∈ l.foldl (fun sorted r => HNSWIndex.push r sorted) acc →
      y ∈ acc ∨ y ∈ l := by
    intro l
    induction l with
    | nil => exact fun acc h => .inl h
    | cons r l ih =>
      intro acc h
      rcases ih _ h with h | h
      · rcases HNSWIndex.mem_push h with rfl | h
        · exact .inr List.mem_cons_self
        · exact .inl h
      · exact .inr (List.mem_cons_of_mem _ h)
  have hbest : ∀ (l acc : List (SearchResult F)), y ∈ l.foldl keepCloser acc → y ∈ acc ∨ y ∈ l := by
    intro l
    induction l with
    | nil => exact fun acc h => .inl h
    | cons r l ih =>
      intro acc h
      rcases ih _ h with h | h
      · rcases mem_keepCloser h with rfl | h
        · exact .inr List.mem_cons_self
        · exact .inl h
      · exact .inr (List.mem_cons_of_mem _ h)
  rcases hsorted _ _ (List.mem_of_mem_take h) with h | h
  · cases h
  · rcases hbest _ _ h with h | h
    · cases h
    · exact List.mem_append.mp h

/-- **What a search answers is in the graph or in the tier.** -/
theorem Kept.holds_of_mem_search (hx : x.Kept) {query : List F} {topK : ℕ} {r : SearchResult F}
    (h : r ∈ x.search query topK) : x.Holds r.id := by
  obtain ⟨t, ht, hc⟩ := hx.cold
  unfold search at h
  dsimp only at h
  split at h
  · cases h
  split at h
  · cases h
  rw [ht] at h
  dsimp only at h
  split at h
  · exact .inl (HNSWIndex.contains_of_mem_search h)
  split at h
  · exact .inl (HNSWIndex.contains_of_mem_search h)
  rcases mem_mergeResults h with h | h
  · exact .inl (HNSWIndex.contains_of_mem_search h)
  · refine .inr ?_
    rw [inCold, ht]
    exact hc.contains_of_mem_search h

/-! ### Moving to the tier -/

variable {id id' : UInt64}

omit [Floats F] in
theorem Kept.relegate (hx : x.Kept) (id : UInt64) : (x.relegate id).Kept := by
  obtain ⟨t, ht, hc⟩ := hx.cold
  unfold TieredIndex.relegate
  split
  · exact hx
  · rename_i n _
    split
    · exact hx
    · refine ⟨hx.rooted.remove, t.append id n.vector, ?_, hc.append id n.vector⟩
      dsimp only
      rw [ht]
      rfl

omit [Floats F] in
/-- A vector that moves leaves the graph and is in the tier. -/
theorem Kept.relegate_eq (hx : x.Kept) :
    ((x.relegate id).hot.contains id' = true ↔ x.hot.contains id' = true ∧ id' ≠ id) ∧
    ((x.relegate id).inCold id' = true ↔ x.inCold id' = true ∨ (id' = id ∧ x.hot.contains id = true)) := by
  obtain ⟨t, ht, hc⟩ := hx.cold
  have hsame : x.hot.contains id = false →
      (x.hot.contains id' = true ↔ x.hot.contains id' = true ∧ id' ≠ id) ∧
        (x.inCold id' = true ↔ x.inCold id' = true ∨ (id' = id ∧ x.hot.contains id = true)) := by
    intro hf
    constructor
    · refine ⟨fun h => ⟨h, ?_⟩, fun h => h.1⟩
      rintro rfl
      rw [hf] at h
      cases h
    · simp [hf]
  unfold TieredIndex.relegate
  split
  · rename_i hn
    exact hsame (by rw [HNSWIndex.contains, hn]; rfl)
  · rename_i n hn
    split
    · rename_i hd
      exact hsame (by rw [HNSWIndex.contains, hn, Option.any_some, hd]; rfl)
    · rename_i hd
      have hin : x.hot.contains id = true := by
        rw [HNSWIndex.contains, hn, Option.any_some, Bool.eq_false_iff.mpr hd]
        rfl
      constructor
      · rw [HNSWIndex.contains_remove, and_comm]
      · unfold inCold
        rw [ht]
        simp only [Option.map_some, Option.any_some]
        rw [hc.contains_append, hin]
        tauto

omit [Floats F] in
/-- Moving vectors keeps each id where it was, or moves it to the tier. -/
theorem Kept.relegates (hx : x.Kept) (he : x.Exclusive) (ids : List UInt64) :
    (ids.foldl TieredIndex.relegate x).Kept ∧ (ids.foldl TieredIndex.relegate x).Exclusive ∧
      ∀ id, (ids.foldl TieredIndex.relegate x).Holds id ↔ x.Holds id := by
  induction ids generalizing x with
  | nil => exact ⟨hx, he, fun _ => Iff.rfl⟩
  | cons i ids ih =>
    have hex : (x.relegate i).Exclusive := by
      intro id hid
      obtain ⟨hin, hne⟩ := hx.relegate_eq.1.mp hid
      rw [Bool.eq_false_iff, Ne, hx.relegate_eq.2, not_or]
      exact ⟨Bool.eq_false_iff.mp (he id hin), fun h => hne h.1⟩
    obtain ⟨hk, hex', hh⟩ := ih (hx.relegate i) hex
    refine ⟨hk, hex', fun id => (hh id).trans ?_⟩
    unfold Holds
    rw [hx.relegate_eq.1, hx.relegate_eq.2]
    constructor
    · rintro (⟨h, -⟩ | h | ⟨rfl, h⟩)
      · exact .inl h
      · exact .inr h
      · exact .inl h
    · rintro (h | h)
      · by_cases hid : id = i
        · exact .inr (.inr ⟨hid, hid ▸ h⟩)
        · exact .inl ⟨h, hid⟩
      · exact .inr (.inl h)

/-! ### Histories -/

inductive Op (F : Type)
  | insert (id : UInt64) (vector : List F) (newLevel : ℕ)
  | remove (id : UInt64)
  | softDelete (id : UInt64)
  | relegateToCold (ids : List UInt64)
  | evictCold

def step (x : TieredIndex F) : Op F → TieredIndex F
  | .insert id vector newLevel => x.insert id vector newLevel
  | .remove id => x.remove id
  | .softDelete id => x.softDelete id
  | .relegateToCold ids => x.relegateToCold ids
  | .evictCold => x.evictCold

omit [Floats F] in
def Op.Removes (id : UInt64) (op : Op F) : Prop := op = .remove id ∨ op = .softDelete id

omit [Floats F] in
def Op.Inserts (id : UInt64) (op : Op F) : Prop := ∃ v l, op = .insert id v l

omit [Floats F] in
/-- The id has been removed and not inserted since. -/
def RemovedSince (id : UInt64) (h : List (Op F)) : Prop :=
  ∃ before op after, h = before ++ op :: after ∧ op.Removes id ∧ ∀ op ∈ after, ¬ op.Inserts id

/-- What is asked of the two tiers: no id is in both, and neither has, and no
search answers, one that is removed and not inserted since. -/
def Apart (h : List (Op F)) (x : TieredIndex F) : Prop :=
  x.Exclusive ∧ ∀ id, RemovedSince id h → ¬ x.Holds id ∧ ∀ query topK, ∀ r ∈ x.search query topK, r.id ≠ id

/-- An id of the tier is not removed, and only inserted as a new node that is not
the first. -/
def Clear (x : TieredIndex F) : Op F → Prop
  | .insert id v _ =>
    x.inCold id = true → v.length = x.hot.config.dimension → x.hot.getNode id = none ∧ x.hot.nodes.keys ≠ []
  | .remove id => x.inCold id = false
  | .softDelete id => x.inCold id = false
  | .relegateToCold _ => True
  | .evictCold => True

omit [Floats F] in
theorem removedSince_concat {h : List (Op F)} {op : Op F} :
    RemovedSince id (h ++ [op]) ↔ op.Removes id ∨ (RemovedSince id h ∧ ¬ op.Inserts id) := by
  constructor
  · rintro ⟨before, op', after, heq, hrem, hins⟩
    rcases List.eq_nil_or_concat after with rfl | ⟨after, last, rfl⟩
    · obtain ⟨-, h⟩ := List.append_inj' heq rfl
      exact .inl (List.singleton_inj.mp h ▸ hrem)
    · rw [List.concat_eq_append, ← List.cons_append, ← List.append_assoc] at heq
      obtain ⟨rfl, h⟩ := List.append_inj' heq rfl
      obtain rfl := List.singleton_inj.mp h
      rw [List.concat_eq_append] at hins
      exact .inr ⟨⟨before, op', after, rfl, hrem, fun o ho => hins o (List.mem_append_left _ ho)⟩,
        hins _ (List.mem_append_right _ List.mem_cons_self)⟩
  · rintro (hrem | ⟨⟨before, op', after, rfl, hrem, hins⟩, hop⟩)
    · exact ⟨h, op, [], rfl, hrem, fun o ho => absurd ho List.not_mem_nil⟩
    · refine ⟨before, op', after ++ [op], by rw [List.append_assoc, List.cons_append], hrem, fun o ho => ?_⟩
      rcases List.mem_append.mp ho with ho | ho
      · exact hins o ho
      · exact List.mem_singleton.mp ho ▸ hop

theorem Kept.inCold_insert (hx : x.Kept) {v : List F} {l : ℕ} :
    (x.insert id v l).Kept ∧ ((x.insert id v l).inCold id' = true ↔
      x.inCold id' = true ∧ ¬ (id' = id ∧ x.insertsNode id v = true)) := by
  obtain ⟨t, ht, hc⟩ := hx.cold
  unfold TieredIndex.insert
  by_cases hnode : x.insertsNode id v = true
  · rw [if_pos hnode, ht]
    refine ⟨⟨hx.rooted.insert, _, rfl, hc.remove id⟩, ?_⟩
    unfold inCold
    rw [ht]
    simp only [Option.map_some, Option.any_some, hnode, and_true]
    rw [hc.contains_remove, and_comm]
  · rw [if_neg hnode]
    refine ⟨⟨hx.rooted.insert, t, ht, hc⟩, ?_⟩
    simp [inCold, hnode]

omit [Floats F] in
/-- Removing marks the node, and the tier does not have the id. -/
theorem Kept.removes (hx : x.Kept) (he : x.Exclusive) {id : UInt64} (hcold : x.inCold id = false) :
    ({ x with hot := x.hot.remove id } : TieredIndex F).Kept ∧
      ({ x with hot := x.hot.remove id } : TieredIndex F).Exclusive ∧
      ∀ id', ({ x with hot := x.hot.remove id } : TieredIndex F).Holds id' → x.Holds id' ∧ id' ≠ id := by
  obtain ⟨t, ht, hcons⟩ := hx.cold
  refine ⟨⟨hx.rooted.remove, t, ht, hcons⟩, fun i hi => he i (HNSWIndex.contains_remove.mp hi).2, fun i hi => ?_⟩
  rcases hi with hi | hi
  · obtain ⟨hne, hin⟩ := HNSWIndex.contains_remove.mp hi
    exact ⟨.inl hin, hne⟩
  · have hin : x.inCold i = true := hi
    refine ⟨.inr hin, ?_⟩
    rintro rfl
    rw [hcold] at hin
    cases hin

/-- Inserting clears the tier of the id, where it makes it active. -/
theorem Kept.inserts (hx : x.Kept) (he : x.Exclusive) {id : UInt64} {v : List F} {l : ℕ}
    (hc : x.Clear (.insert id v l)) :
    (x.insert id v l).Exclusive ∧ ∀ i, (x.insert id v l).Holds i → i ≠ id → x.Holds i := by
  have hhot : ∀ i, (x.insert id v l).hot.contains i = true ↔
      (i = id ∧ v.length = x.hot.config.dimension) ∨ x.hot.contains i = true :=
    fun i => HNSWIndex.contains_insert hx.rooted
  refine ⟨fun i hi => ?_, fun i hi hid => ?_⟩
  · rw [Bool.eq_false_iff]
    intro hstill
    obtain ⟨hcold, hnot⟩ := hx.inCold_insert.2.mp hstill
    rcases (hhot i).mp hi with ⟨rfl, hdim⟩ | hi
    · obtain ⟨hnew, hkeys⟩ := hc hcold hdim
      exact hnot ⟨rfl, by simp [insertsNode, hdim, hnew, hkeys]⟩
    · rw [he i hi] at hcold
      cases hcold
  · rcases hi with hi | hi
    · exact .inl (((hhot i).mp hi).resolve_left fun h => hid h.1)
    · exact .inr (hx.inCold_insert.2.mp hi).1

/-- Either way to move ids is one id after another. -/
theorem Kept.exists_relegated (hx : x.Kept) {op : Op F} (h : op = .evictCold ∨ ∃ ids, op = .relegateToCold ids) :
    ∃ ids : List UInt64, x.step op = ids.foldl TieredIndex.relegate x := by
  obtain ⟨t, ht, -⟩ := hx.cold
  rcases h with rfl | ⟨ids, rfl⟩
  · show ∃ ids : List UInt64, x.evictCold = ids.foldl TieredIndex.relegate x
    unfold evictCold
    split
    · exact ⟨[], rfl⟩
    · split
      · exact ⟨[], rfl⟩
      · exact ⟨_, rfl⟩
  · refine ⟨ids, ?_⟩
    show x.relegateToCold ids = _
    rw [relegateToCold, ht]
    rfl

/-- A step that is clear. -/
theorem Kept.step (hx : x.Kept) (he : x.Exclusive) {op : Op F} (hc : x.Clear op) :
    (x.step op).Kept ∧ (x.step op).Exclusive ∧
      ∀ id, (x.step op).Holds id → (x.Holds id ∧ ¬ op.Removes id) ∨ op.Inserts id := by
  cases op with
  | insert id v l =>
    obtain ⟨hk, -⟩ : (x.insert id v l).Kept ∧ ((x.insert id v l).inCold id = true ↔ _) := hx.inCold_insert
    obtain ⟨hex, hh⟩ := hx.inserts he hc
    refine ⟨hk, hex, fun i hi => ?_⟩
    by_cases hid : i = id
    · exact .inr ⟨v, l, by rw [hid]⟩
    · refine .inl ⟨hh i hi hid, ?_⟩
      rintro (h | h) <;> cases h
  | remove id =>
    obtain ⟨hk, hex, hh⟩ := hx.removes he hc
    refine ⟨hk, hex, fun i hi => .inl ⟨(hh i hi).1, ?_⟩⟩
    rintro (h | h) <;> cases h
    exact (hh _ hi).2 rfl
  | softDelete id =>
    obtain ⟨hk, hex, hh⟩ := hx.removes he hc
    refine ⟨hk, hex, fun i hi => .inl ⟨(hh i hi).1, ?_⟩⟩
    rintro (h | h) <;> cases h
    exact (hh _ hi).2 rfl
  | relegateToCold ids =>
    obtain ⟨ids', hids⟩ := hx.exists_relegated (.inr ⟨ids, rfl⟩)
    rw [hids]
    obtain ⟨hk, hex, hh⟩ := hx.relegates he ids'
    refine ⟨hk, hex, fun i hi => .inl ⟨(hh i).mp hi, ?_⟩⟩
    rintro (h | h) <;> cases h
  | evictCold =>
    obtain ⟨ids', hids⟩ := hx.exists_relegated (.inl rfl)
    rw [hids]
    obtain ⟨hk, hex, hh⟩ := hx.relegates he ids'
    refine ⟨hk, hex, fun i hi => .inl ⟨(hh i).mp hi, ?_⟩⟩
    rintro (h | h) <;> cases h

/-- A step that is not clear leaves an id in both, or a removed one in the
tier. -/
theorem Kept.clear_of_apart (hx : x.Kept) {h : List (Op F)} {op : Op F} (ha : Apart (h ++ [op]) (x.step op)) :
    x.Clear op := by
  obtain ⟨hex, hrem⟩ := ha
  have hgone : ∀ id, op.Removes id → (x.step op).inCold id = false := by
    intro id hop
    rw [Bool.eq_false_iff]
    exact fun hcold => (hrem id (removedSince_concat.mpr (.inl hop))).1 (.inr hcold)
  cases op with
  | insert id v l =>
    intro hcold hdim
    by_contra hnot
    have hin : (x.insert id v l).hot.contains id = true := (HNSWIndex.contains_insert hx.rooted).mpr (.inl ⟨rfl, hdim⟩)
    have hstill : (x.insert id v l).inCold id = true := by
      refine hx.inCold_insert.2.mpr ⟨hcold, fun hn => hnot ?_⟩
      have hn := hn.2
      simp only [insertsNode, decide_eq_true_eq, Option.isNone_iff_eq_none] at hn
      exact hn.2
    rw [show (x.insert id v l).inCold id = false from hex id hin] at hstill
    cases hstill
  | remove id => exact hgone id (.inl rfl)
  | softDelete id => exact hgone id (.inr rfl)
  | relegateToCold ids => trivial
  | evictCold => trivial

/-- **The tiers stay apart if and only if every step is clear.** -/
theorem exclusive_iff (x : TieredIndex F) (hempty : x.hot.nodes.keys = []) (t : ColdTierIndex F) (ht : x.cold = some t)
    (hc : t.Consistent) (ops : List (Op F)) :
    (∀ pre, pre <+: ops → Apart pre (Run.run step x pre)) ↔ Run.Along step Clear x ops := by
  refine Run.along_iff_of_inv (D := fun _ _ => True)
    (I := fun h x => x.Kept ∧ x.Exclusive ∧ ∀ id, RemovedSince id h → ¬ x.Holds id) ?_ ?_ ?_ ?_ (Run.along_true x ops)
  · rintro h x op ⟨hk, he, hr⟩ - hclear
    obtain ⟨hk', he', hh⟩ := hk.step he hclear
    refine ⟨hk', he', fun id hid hhold => ?_⟩
    rcases removedSince_concat.mp hid with hrem | ⟨hrem, hins⟩
    · rcases hh id hhold with ⟨-, hnot⟩ | ⟨v, l, rfl⟩
      · exact hnot hrem
      · rcases hrem with h | h <;> cases h
    · rcases hh id hhold with ⟨hold, -⟩ | hop
      · exact hr id hrem hold
      · exact hins hop
  · rintro h x ⟨hk, he, hr⟩
    refine ⟨he, fun id hid => ⟨hr id hid, ?_⟩⟩
    rintro query topK r hmem rfl
    exact hr r.id hid (hk.holds_of_mem_search hmem)
  · rintro h x op ⟨hk, -, -⟩ - hapart
    exact hk.clear_of_apart hapart
  · have hnone : ∀ id, x.hot.contains id = false := by
      intro id
      rw [HNSWIndex.contains, HNSWIndex.getNode, AList.lookup_eq_none.mpr]
      · rfl
      · rw [AList.mem_keys, hempty]
        exact List.not_mem_nil
    refine ⟨⟨fun h => absurd hempty h, t, ht, hc⟩, fun id hid => ?_, ?_⟩
    · rw [hnone id] at hid
      cases hid
    · rintro id ⟨before, op, after, heq, -⟩
      exact absurd heq (by simp)

instance (x : TieredIndex F) : ∀ op : Op F, Decidable (x.Clear op)
  | .insert id v _ => inferInstanceAs (Decidable (x.inCold id = true → v.length = x.hot.config.dimension →
      x.hot.getNode id = none ∧ x.hot.nodes.keys ≠ []))
  | .remove id | .softDelete id => inferInstanceAs (Decidable (x.inCold id = false))
  | .relegateToCold _ | .evictCold => .isTrue trivial

/-- Points of a line, and their distance. -/
def line : TieredIndex ℤ :=
  let distance := fun v w : List ℤ => (((v.headD 0 - w.headD 0).natAbs : ℕ) : ℤ)
  { hot := { config := { dimension := 1, computeDistance := distance } }
    cold := some { dimension := 1, computeDistance := distance }
    hotCapacity := 1
    evictCount := fun n => n / 2 }

/-- Id 1 moves to the tier and id 2 is removed. -/
theorem exclusive_line :
    Apart [.insert 1 [5] 0, .insert 2 [6] 0, .evictCold, .remove 2]
      (Run.run step line [.insert 1 [5] 0, .insert 2 [6] 0, .evictCold, .remove 2]) :=
  (exclusive_iff line rfl _ rfl (ColdTierIndex.consistent_nil _ rfl rfl) _).mpr (by decide) _ (List.prefix_refl _)

/-- Id 1 moves to the tier: inserted again it is in both, and removed it is still
in the tier and what a search answers first. -/
theorem both_tiers :
    ((Run.run step line [.insert 1 [5] 0, .relegateToCold [1], .insert 1 [6] 0]).hot.contains 1 = true ∧
      (Run.run step line [.insert 1 [5] 0, .relegateToCold [1], .insert 1 [6] 0]).inCold 1 = true) ∧
    (Run.run step line [.insert 1 [5] 0, .insert 2 [6] 0, .relegateToCold [1], .remove 1]).inCold 1 = true ∧
    ((Run.run step line [.insert 1 [5] 0, .insert 2 [6] 0, .relegateToCold [1], .remove 1]).search [5] 1).map (·.id) =
      [1] := by
  decide

end TieredIndex
end Vector
end Amind
