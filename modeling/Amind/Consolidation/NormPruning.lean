/-
# What pruning by norms loses

Memories are compared in the order of their norms, until the shorter vector is
shorter than the threshold times the longer one: then none of those after it can
be similar, says the worker. But the cosine does not depend on the norms at all:
vectors of one direction have cosine 1 at any scale.

Over the reals, `noDuplicates_iff` says what is lost: similar pairs of which the
one is too short. Where there are none, no two of the memories that are left are
similar.
-/
import Mathlib.Analysis.Real.Sqrt
import Mathlib.Analysis.SpecialFunctions.Log.Basic
import Amind.Consolidation.Dedup

namespace Amind
namespace Consolidation

open Amind.Core

/-- Exact real numbers. -/
noncomputable instance realOps : FloatOps ℝ where
  decidableLT := inferInstance
  decidableLE := inferInstance
  sqrt := Real.sqrt
  log := Real.log
  ofUInt32 x := x.toNat
  toUInt64 x := UInt64.ofNat ⌊x⌋₊
  toText x := sixDecimals (⌊x * 1000000⌋₊ / 1000000)

/-! ### The cosine -/

theorem dot_comm : ∀ (a b : List ℝ) (s : ℝ), (a.zip b).foldl (fun s x => s + x.1 * x.2) s =
    (b.zip a).foldl (fun s x => s + x.1 * x.2) s
  | [], b, s => by simp
  | _ :: _, [], s => by simp
  | x :: a, y :: b, s => by
    rw [List.zip_cons_cons, List.zip_cons_cons, List.foldl_cons, List.foldl_cons, mul_comm x y]
    exact dot_comm a b _

theorem cosineSim_comm (a b : List ℝ) : cosineSim a b = cosineSim b a := by
  unfold cosineSim
  by_cases hlen : a.length = b.length
  · by_cases hnil : a = []
    · have hb : b = [] := List.eq_nil_of_length_eq_zero (by rw [← hlen, hnil]; rfl)
      rw [hnil, hb]
    · have hb : b ≠ [] := fun hb => hnil (List.eq_nil_of_length_eq_zero (by rw [hlen, hb]; rfl))
      rw [if_neg (not_or.mpr ⟨not_not.mpr hlen, hnil⟩), if_neg (not_or.mpr ⟨not_not.mpr hlen.symm, hb⟩)]
      dsimp only
      rw [dot_comm a b, mul_comm (sqrt (squares a))]
  · rw [if_pos (.inl hlen), if_pos (.inl (Ne.symm hlen))]

/-! ### What is left -/

section Left

variable (threshold : ℝ)

/-- The pair has vectors of one dimension that are similar. -/
def Duplicates (a b : MemoryRecord ℝ) : Prop :=
  a.embedding ≠ [] ∧ b.embedding ≠ [] ∧ a.embedding.length = b.embedding.length ∧
    threshold ≤ cosineSim a.embedding b.embedding

/-- The norm of a memory's vector. -/
noncomputable def normOf (a : MemoryRecord ℝ) : ℝ := sqrt (squares a.embedding)

/-- Neither vector is too short for the other. -/
def NormsClose (a b : MemoryRecord ℝ) : Prop := threshold * normOf a ≤ normOf b ∧ threshold * normOf b ≤ normOf a

/-- The memories that are not archived. -/
def survivors (memories : List (MemoryRecord ℝ)) (archived : ℕ → Bool) : List (MemoryRecord ℝ) :=
  (memories.zipIdx.filter fun m => !archived m.2).map Prod.fst

/-- No two of the memories that are left are similar. -/
def NoDuplicates (memories : List (MemoryRecord ℝ)) (archived : ℕ → Bool) : Prop :=
  (survivors memories archived).Pairwise fun a b => ¬ Duplicates threshold a b

variable {threshold}

/-- Sorting by norm. -/
noncomputable def sortedByNorm (memories : List (MemoryRecord ℝ)) : NormOrder memories where
  toList := (normed memories).insertionSort fun a b => a.norm ≤ b.norm
  perm := List.perm_insertionSort _ _
  sorted := by
    have htotal : Std.Total fun a b : Entry ℝ => a.norm ≤ b.norm := ⟨fun a b => le_total a.norm b.norm⟩
    have htrans : IsTrans (Entry ℝ) fun a b => a.norm ≤ b.norm := ⟨fun _ _ _ => le_trans⟩
    exact (List.pairwise_insertionSort _ (normed memories)).imp fun h => not_lt.mpr h

theorem norm_normed {memories : List (MemoryRecord ℝ)} {e : Entry ℝ} (he : e ∈ normed memories)
    (hne : e.memory.embedding ≠ []) : e.norm = normOf e.memory := by
  obtain ⟨m, -, rfl⟩ := List.mem_map.mp he
  exact if_neg hne

theorem normOf_nonneg (a : MemoryRecord ℝ) : 0 ≤ normOf a := Real.sqrt_nonneg _

/-- Of two members one comes first. -/
theorem pair_sublist {α : Type} {a b : α} (hne : a ≠ b) : ∀ {l : List α}, a ∈ l → b ∈ l →
    [a, b].Sublist l ∨ [b, a].Sublist l
  | x :: l, ha, hb => by
    rcases List.mem_cons.mp ha with rfl | ha'
    · rcases List.mem_cons.mp hb with rfl | hb'
      · exact absurd rfl hne
      · exact .inl ((List.singleton_sublist.mpr hb').cons_cons a)
    · rcases List.mem_cons.mp hb with rfl | hb'
      · exact .inr ((List.singleton_sublist.mpr ha').cons_cons b)
      · exact (pair_sublist hne ha' hb').imp (.cons x) (.cons x)

/-- Vectors too far apart are so for all that are longer. -/
theorem apart_mono {x z y : Entry ℝ} (hzy : ¬ y.norm < z.norm) (h : Apart threshold x z) : Apart threshold x y := by
  obtain ⟨hx, hz, hlt⟩ := h
  have hle : z.norm ≤ y.norm := not_lt.mp hzy
  exact ⟨hx, lt_of_lt_of_le hz hle, lt_of_le_of_lt (div_le_div_of_nonneg_left (le_of_lt hx) hz hle) hlt⟩

/-- Two memories that are left are too far apart, if they are similar. -/
theorem apart_of_left {memories : List (MemoryRecord ℝ)} (order : NormOrder memories) {x y : Entry ℝ}
    (hsub : [x, y].Sublist order.toList) (hx : x.memory.embedding ≠ []) (hy : y.memory.embedding ≠ [])
    (hsim : Similar cosineSim threshold x y) (hleft : (dedupBy cosineSim threshold order).2 x.place = false)
    (hleft' : (dedupBy cosineSim threshold order).2 y.place = false) : Apart threshold x y := by
  have hunmarked : ∀ e : Entry ℝ, (dedupBy cosineSim threshold order).2 e.place = false →
      e ∉ (turnsOf cosineSim threshold (fun _ => false) order.toList).flatMap (Turns.marks LessImportant) := by
    intro e he hmark
    rw [(archived_iff cosineSim threshold order).mpr ⟨e, hmark, rfl⟩] at he
    cases he
  have hfilter : [x, y].filter (fun e : Entry ℝ => e.memory.embedding ≠ []) = [x, y] := by simp [hx, hy]
  have hsub' := hsub.filter fun e : Entry ℝ => e.memory.embedding ≠ []
  rw [hfilter] at hsub'
  refine Turns.apart_of_unmarked (Apart threshold) (Similar cosineSim threshold) hsim _ (fun _ => false)
    order.places_filter ((order.sorted.sublist List.filter_sublist).imp fun h _ => apart_mono h) hsub' rfl rfl
    (hunmarked x hleft) (hunmarked y hleft')

theorem similar_comm {x y : Entry ℝ} : Similar cosineSim threshold x y ↔ Similar cosineSim threshold y x := by
  unfold Similar
  rw [cosineSim_comm]

/-- Memories whose norms are close are not too far apart. -/
theorem NormsClose.not_apart {memories : List (MemoryRecord ℝ)} {x y : Entry ℝ} (hx : x ∈ normed memories)
    (hy : y ∈ normed memories) (hx' : x.memory.embedding ≠ []) (hy' : y.memory.embedding ≠ [])
    (h : threshold * normOf y.memory ≤ normOf x.memory) : ¬ Apart threshold x y := by
  rintro ⟨-, hpos, hlt⟩
  rw [norm_normed hx hx', norm_normed hy hy'] at hlt
  rw [norm_normed hy hy'] at hpos
  exact absurd ((div_lt_iff₀ hpos).mp hlt) (not_lt.mpr h)

/-- **If all similar memories have close norms, none of those left are similar.** -/
theorem noDuplicates_of_close {memories : List (MemoryRecord ℝ)}
    (hclose : memories.Pairwise fun a b => Duplicates threshold a b → NormsClose threshold a b)
    (order : NormOrder memories) : NoDuplicates threshold memories (dedupBy cosineSim threshold order).2 := by
  have hplaces : memories.zipIdx.Pairwise fun a b => a.2 ≠ b.2 := by
    have hnodup : (memories.zipIdx.map Prod.snd).Nodup := by
      rw [List.zipIdx_map_snd]
      exact List.nodup_range'
    exact List.pairwise_map.mp hnodup
  have hpairs : memories.zipIdx.Pairwise fun a b => Duplicates threshold a.1 b.1 → NormsClose threshold a.1 b.1 := by
    have hfst : memories.zipIdx.map Prod.fst = memories := List.zipIdx_map_fst 0 memories
    exact List.pairwise_map.mp (hfst.symm ▸ hclose)
  unfold NoDuplicates survivors
  refine List.pairwise_map.mpr (List.Pairwise.imp_of_mem ?_ ((hplaces.and hpairs).sublist List.filter_sublist))
  rintro a b ha hb ⟨hne, hclose⟩ hdup
  obtain ⟨hina, hlefta⟩ := List.mem_filter.mp ha
  obtain ⟨hinb, hleftb⟩ := List.mem_filter.mp hb
  obtain ⟨x, hx, hxplace, hxmem⟩ := exists_normed (List.mk_mem_zipIdx_iff_getElem?.mp hina)
  obtain ⟨y, hy, hyplace, hymem⟩ := exists_normed (List.mk_mem_zipIdx_iff_getElem?.mp hinb)
  have hxy : x ≠ y := fun heq => hne (by rw [← hxplace, ← hyplace, heq])
  have hnonx : x.memory.embedding ≠ [] := hxmem ▸ hdup.1
  have hnony : y.memory.embedding ≠ [] := hymem ▸ hdup.2.1
  have hsim : Similar cosineSim threshold x y := by
    unfold Similar
    rw [hxmem, hymem]
    exact hdup.2.2.2
  have hleftx : (dedupBy cosineSim threshold order).2 x.place = false := by
    rw [hxplace]
    simpa using hlefta
  have hlefty : (dedupBy cosineSim threshold order).2 y.place = false := by
    rw [hyplace]
    simpa using hleftb
  obtain ⟨hab, hba⟩ := hclose hdup
  rw [← hxmem, ← hymem] at hab hba
  rcases pair_sublist hxy (order.perm.mem_iff.mpr hx) (order.perm.mem_iff.mpr hy) with hsub | hsub
  · exact NormsClose.not_apart hx hy hnonx hnony hba (apart_of_left order hsub hnonx hnony hsim hleftx hlefty)
  · exact NormsClose.not_apart hy hx hnony hnonx hab
      (apart_of_left order hsub hnony hnonx (similar_comm.mp hsim) hlefty hleftx)

/-- Two memories that are too far apart are never compared. -/
theorem nothing_archived {a b : MemoryRecord ℝ} (order : NormOrder [a, b]) (hthr : threshold ≤ 1) {x y : Entry ℝ}
    (hx : x ∈ normed [a, b]) (hy : y ∈ normed [a, b]) (hx' : x.memory.embedding ≠ []) (hy' : y.memory.embedding ≠ [])
    (hapart : Apart threshold x y) (i : ℕ) : (dedupBy cosineSim threshold order).2 i = false := by
  have hpos := hapart.2.1
  have hlt := hapart.2.2
  have hless : x.norm < y.norm := lt_of_lt_of_le ((div_lt_iff₀ hpos).mp hlt) (by nlinarith)
  have hlen : order.toList.length = 2 := order.perm.length_eq
  have hlist : order.toList = [x, y] := by
    have hne : x ≠ y := fun heq => by
      rw [heq] at hless
      exact lt_irrefl _ hless
    rcases pair_sublist hne (order.perm.mem_iff.mpr hx)
        (order.perm.mem_iff.mpr hy) with hsub | hsub
    · exact (hsub.eq_of_length hlen.symm).symm
    · have hsorted := order.sorted.sublist hsub
      exact absurd hless (List.rel_of_pairwise_cons hsorted List.mem_cons_self)
  have hmet : Turns.met (·.place) (Apart threshold) (Similar cosineSim threshold) (fun _ => false) x [y] = [] := by
    rw [Turns.met_cons, if_neg Bool.false_ne_true, if_pos hapart]
  have hturns : turnsOf cosineSim threshold (fun _ => false) [x, y] = [(x, []), (y, [])] := by
    unfold turnsOf
    rw [List.filter_cons_of_pos (by simpa using hx'), List.filter_cons_of_pos (by simpa using hy'), List.filter_nil]
    rw [Turns.turns, if_neg Bool.false_ne_true, hmet, Turns.turns, if_neg (by simp [Turns.leave, Turns.absorbed])]
    rfl
  refine Bool.eq_false_iff.mpr fun hi => ?_
  obtain ⟨e, he, -⟩ := (archived_iff cosineSim threshold order).mp hi
  rw [hlist, hturns] at he
  simp [Turns.marks, Turns.absorbed, Turns.rivals] at he

/-- The worker leaves both of two similar memories whose norms are not close. -/
theorem both_left {a b : MemoryRecord ℝ} (hpos : 0 < threshold) (hthr : threshold ≤ 1)
    (hdup : Duplicates threshold a b) (hfar : ¬ NormsClose threshold a b) (order : NormOrder [a, b]) :
    ¬ NoDuplicates threshold [a, b] (dedupBy cosineSim threshold order).2 := by
  obtain ⟨ha, hb, hdim, hsim⟩ := hdup
  -- both norms are positive, or the cosine is zero
  have hnorms : 0 < normOf a * normOf b := by
    by_contra hzero
    have hcos : cosineSim a.embedding b.embedding = 0 := by
      unfold cosineSim
      split
      · rfl
      · exact if_neg hzero
    exact absurd hsim (not_le.mpr (hcos ▸ hpos))
  have hposa : 0 < normOf a := pos_of_mul_pos_left hnorms (normOf_nonneg b)
  have hposb : 0 < normOf b := pos_of_mul_pos_right hnorms (normOf_nonneg a)
  have hfirst : [a, b][0]? = some a := rfl
  have hsecond : [a, b][1]? = some b := rfl
  obtain ⟨x, hx, hxplace, hxmem⟩ := exists_normed hfirst
  obtain ⟨y, hy, hyplace, hymem⟩ := exists_normed hsecond
  have hx' : x.memory.embedding ≠ [] := hxmem ▸ ha
  have hy' : y.memory.embedding ≠ [] := hymem ▸ hb
  have hxnorm : x.norm = normOf a := hxmem ▸ norm_normed hx hx'
  have hynorm : y.norm = normOf b := hymem ▸ norm_normed hy hy'
  have hnone : ∀ i, (dedupBy cosineSim threshold order).2 i = false := by
    intro i
    rcases not_and_or.mp hfar with hlt | hlt
    · refine nothing_archived order hthr hy hx hy' hx' ⟨hynorm ▸ hposb, hxnorm ▸ hposa, ?_⟩ i
      rw [hxnorm, hynorm]
      exact (div_lt_iff₀ hposa).mpr (not_le.mp hlt)
    · refine nothing_archived order hthr hx hy hx' hy' ⟨hxnorm ▸ hposa, hynorm ▸ hposb, ?_⟩ i
      rw [hxnorm, hynorm]
      exact (div_lt_iff₀ hposb).mpr (not_le.mp hlt)
  intro h
  have hboth : survivors [a, b] (dedupBy cosineSim threshold order).2 = [a, b] := by
    unfold survivors
    simp [hnone]
  unfold NoDuplicates at h
  rw [hboth] at h
  exact List.rel_of_pairwise_cons h List.mem_cons_self ⟨ha, hb, hdim, hsim⟩

variable (threshold) in
/-- **No similar memories are left of any part of a pool if and only if all similar
ones of the pool have close norms.** -/
theorem noDuplicates_iff (hpos : 0 < threshold) (hthr : threshold ≤ 1) (memories : List (MemoryRecord ℝ)) :
    (∀ part : List (MemoryRecord ℝ), part.Sublist memories → ∀ order : NormOrder part,
      NoDuplicates threshold part (dedupBy cosineSim threshold order).2) ↔
    memories.Pairwise fun a b => Duplicates threshold a b → NormsClose threshold a b := by
  constructor
  · intro h
    refine List.pairwise_iff_forall_sublist.mpr fun {a b} hsub hdup => ?_
    by_contra hfar
    exact both_left hpos hthr hdup hfar (sortedByNorm [a, b]) (h [a, b] hsub _)
  · intro h part hsub order
    exact noDuplicates_of_close (h.sublist hsub) order

end Left

/-- A memory with a vector of one number. -/
noncomputable def numberMemory (id : UInt64) (number : ℝ) : MemoryRecord ℝ :=
  { MemoryRecord.zero with memoryId := id, embedding := [number] }

theorem cosineSim_numbers {v w : ℝ} (hv : 0 < v) (hw : 0 < w) : cosineSim [v] [w] = 1 := by
  have hsquares : ∀ u : ℝ, 0 < u → Real.sqrt (0 + u * u) = u := fun u hu => by
    rw [zero_add]
    exact Real.sqrt_mul_self (le_of_lt hu)
  have hdenom : (sqrt (squares [v]) * sqrt (squares [w]) : ℝ) = v * w := by
    show Real.sqrt (0 + v * v) * Real.sqrt (0 + w * w) = v * w
    rw [hsquares v hv, hsquares w hw]
  unfold cosineSim
  rw [if_neg (by simp), hdenom]
  dsimp only
  rw [if_pos (mul_pos hv hw)]
  show (0 + v * w) / (v * w) = 1
  rw [zero_add]
  exact div_self (ne_of_gt (mul_pos hv hw))

theorem normOf_number (id : UInt64) {v : ℝ} (hv : 0 < v) : normOf (numberMemory id v) = v := by
  show Real.sqrt (0 + v * v) = v
  rw [zero_add]
  exact Real.sqrt_mul_self (le_of_lt hv)

/-- Vectors of one norm. -/
theorem noDuplicates_equal : NormsClose (92 / 100) (numberMemory 1 1) (numberMemory 2 1) ∧
    ∀ order : NormOrder [numberMemory 1 1, numberMemory 2 1],
      NoDuplicates (92 / 100) [numberMemory 1 1, numberMemory 2 1] (dedupBy cosineSim (92 / 100) order).2 := by
  have hclose : NormsClose (92 / 100) (numberMemory 1 1) (numberMemory 2 1) := by
    unfold NormsClose
    rw [normOf_number 1 one_pos, normOf_number 2 one_pos]
    norm_num
  refine ⟨hclose, (noDuplicates_iff (92 / 100) (by norm_num) (by norm_num) _).mpr ?_ _ (.refl _)⟩
  simpa using fun _ => hclose

/-- The one vector is twice the other: they have cosine 1 and are not compared. -/
theorem noDuplicates_twice : cosineSim (numberMemory 1 1).embedding (numberMemory 2 2).embedding = 1 ∧
    ∀ order : NormOrder [numberMemory 1 1, numberMemory 2 2],
      ¬ NoDuplicates (92 / 100) [numberMemory 1 1, numberMemory 2 2] (dedupBy cosineSim (92 / 100) order).2 := by
  have hcos : cosineSim (numberMemory 1 1).embedding (numberMemory 2 2).embedding = 1 :=
    cosineSim_numbers one_pos two_pos
  have hpos : (0 : ℝ) < 92 / 100 := by norm_num
  have hone : (92 / 100 : ℝ) ≤ 1 := by norm_num
  refine ⟨hcos, both_left hpos hone ⟨List.cons_ne_nil _ _, List.cons_ne_nil _ _, rfl, hone.trans hcos.ge⟩ ?_⟩
  unfold NormsClose
  rw [normOf_number 1 one_pos, normOf_number 2 two_pos]
  norm_num

end Consolidation
end Amind
