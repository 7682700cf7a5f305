/-
# The places of an answer

Ranking owes as many different candidates as there is room for, and one with the
highest score among them (`Ranks`). There are two ways in which it fails.

If there is room for one and there are four or more, the place for a draw is the only
one. The first candidate is selected all the same, and one more is drawn.

A round of the selection takes the first place if no candidate that is left has a
value above the least float. If that place is used, what stayed behind of the first
candidate is answered as well (`Blind`). It takes a score that is not finite, or one
far below the others, for a value so low.

Otherwise the answer is as it should be, and only then (`ranks_iff`).
-/
import Amind.Retrieval.Ranking

namespace Amind
namespace Retrieval

open Amind.Core Amind.Best

/-! ### What is owed -/

section Statement

variable {F : Type} [RecallOps F]

/-- The answer has as many different candidates as there is room for, and one with the
highest of the scores that were ranked. -/
structure Ranks (reranker : Option (Reranker F)) (candidates : List (ScoredMemory F)) (topK : ℕ)
    (answered : List (ScoredMemory F)) : Prop where
  length : answered.length = min topK candidates.length
  among : ∀ m ∈ answered, ∃ c ∈ candidates, m = { c with totalScore := m.totalScore }
  distinct : (answered.map (·.record.memoryId)).Nodup
  highest : candidates ≠ [] → ∃ m ∈ answered, ∀ c ∈ reranked reranker candidates, ¬ m.totalScore < c.totalScore

/-- The first place is used, and no candidate that is left has a value above the least
float. -/
def Blind (value : Selection F → ScoredMemory F × ℕ → F) (s : Selection F) : Prop :=
  s.used 0 = true ∧ ∀ m ∈ s.unused, ¬ lowest < value s m

/-- No round of the selection is blind. -/
def Sees (p : EntityPatterns) (candidates : List (ScoredMemory F)) (topK : ℕ) : Prop :=
  topK < candidates.length → ∀ k < selectK candidates.length topK - 1,
    ¬ Blind (mmrOf p candidates) (selectMmr (mmrOf p candidates) k (firstSelected candidates))

/-- Every candidate has a value above the least float, whatever was taken. -/
def Rated (p : EntityPatterns) (candidates : List (ScoredMemory F)) : Prop :=
  ∀ s : Selection F, s.From candidates → ∀ m ∈ s.unused, lowest < mmrOf p candidates s m

end Statement

/-! ### Few candidates -/

section Few

variable {F : Type} (p : EntityPatterns)

/-- Each candidate is picked once. -/
theorem rebalance_perm : ∀ {n : ℕ} {order : List (ScoredMemory F)} {lastKey : Text} {streak : ℕ},
    order.length = n → (rebalance p n order lastKey streak).Perm order
  | 0, order, _, _, h => by
    rw [List.length_eq_zero_iff.mp h]
    exact .nil
  | n + 1, order, lastKey, streak, h => by
    have hlt : (order.findIdx? fun m => ¬ (2 ≤ streak ∧ lastKey ≠ [] ∧ entityKey p m = lastKey)).getD 0 <
        order.length := by
      cases hi : order.findIdx? fun m => ¬ (2 ≤ streak ∧ lastKey ≠ [] ∧ entityKey p m = lastKey) with
      | none => exact h ▸ Nat.succ_pos n
      | some i => exact (List.findIdx?_eq_some_iff_getElem.mp hi).1
    rw [rebalance]
    dsimp only
    rw [List.getElem?_eq_getElem hlt]
    dsimp only
    have hrest : ∀ (key : Text) (streak' : ℕ), (_ :: rebalance p n (order.eraseIdx _) key streak').Perm order :=
      fun key streak' => ((rebalance_perm (by rw [List.length_eraseIdx_of_lt hlt, h]; rfl)).cons _).trans
        (List.getElem_cons_eraseIdx_perm hlt)
    split
    · exact hrest _ _
    · exact hrest _ _

end Few

/-! ### The selection -/

section Selecting

variable {F : Type} {originals : List (ScoredMemory F)} {s : Selection F}

namespace Selection

/-- Each place was used once, by the candidate that was there. -/
structure Whole (originals : List (ScoredMemory F)) (s : Selection F) : Prop where
  length : s.candidates.length = originals.length
  left : ∀ {i : ℕ}, s.used i = false → s.candidates[i]? = originals[i]?
  taken : ∀ m ∈ s.selected, originals[m.2]? = some m.1
  once : (s.selected.map (·.2)).Nodup

theorem Whole.start (originals : List (ScoredMemory F)) : Whole originals ⟨originals, []⟩ where
  length := rfl
  left := fun _ => rfl
  taken := fun _ h => by cases h
  once := List.nodup_nil

theorem used_iff {i : ℕ} : s.used i = true ↔ ∃ m ∈ s.selected, m.2 = i := by
  rw [used, List.contains_iff_mem, List.mem_map]

theorem mem_unused {m : ScoredMemory F × ℕ} : m ∈ s.unused ↔ s.candidates[m.2]? = some m.1 ∧ s.used m.2 = false := by
  rw [unused, List.mem_filter, Bool.not_eq_true', List.mem_zipIdx_iff_getElem?]

/-- Taking from a place that is not used yet. -/
theorem Whole.take (h : Whole originals s) {i : ℕ} (hi : s.used i = false) (hlt : i < originals.length) :
    Whole originals (s.take i) ∧ (s.take i).selected.length = s.selected.length + 1 := by
  have hm : s.candidates[i]? = some originals[i] := (h.left hi).trans (List.getElem?_eq_getElem hlt)
  rw [take_of_getElem? hm]
  refine ⟨⟨(List.length_set ..).trans h.length, fun {j} hj => ?_, fun m hmem => ?_, ?_⟩, List.length_append ..⟩
  · have hj' : s.used j = false ∧ i ≠ j := by
      simpa [used, eq_comm] using hj
    exact (List.getElem?_set_ne hj'.2).trans (h.left hj'.1)
  · rcases List.mem_append.mp hmem with hmem | hmem
    · exact h.taken m hmem
    · rw [List.mem_singleton.mp hmem]
      exact List.getElem?_eq_getElem hlt
  · rw [List.map_append]
    refine List.nodup_append.mpr ⟨h.once, List.nodup_singleton i, fun j hj k hk he => ?_⟩
    have hji : j = i := he.trans (List.mem_singleton.mp hk)
    exact Bool.eq_false_iff.mp hi (List.contains_iff_mem.mpr (hji ▸ hj))

/-- Something is left while fewer were taken than there are. -/
theorem Whole.exists_unused (h : Whole originals s) (hlt : s.selected.length < originals.length) :
    s.unusedIndices ≠ [] := by
  intro hnil
  have hall : List.range originals.length ⊆ s.selected.map (·.2) := by
    intro i hi
    have hi' : i < s.candidates.length := h.length ▸ List.mem_range.mp hi
    by_contra hused
    have hmem : (s.candidates[i], i) ∈ s.unused :=
      mem_unused.mpr ⟨List.getElem?_eq_getElem hi', Bool.eq_false_iff.mpr fun hu => hused (List.contains_iff_mem.mp hu)⟩
    rw [List.map_eq_nil_iff.mp hnil] at hmem
    cases hmem
  have hle := ((List.nodup_range).subperm hall).length_le
  rw [List.length_range, List.length_map] at hle
  exact Nat.not_lt.mpr hle hlt

/-- Different places have different ids. -/
theorem Whole.distinct (h : Whole originals s) (hids : (originals.map (·.record.memoryId)).Nodup) :
    (s.selected.map (·.1.record.memoryId)).Nodup := by
  refine List.pairwise_map.mpr ((List.pairwise_map.mp h.once).imp_of_mem fun {a b} ha hb hne he => hne ?_)
  have hid : ∀ m ∈ s.selected, (originals.map (·.record.memoryId))[m.2]? = some m.1.record.memoryId := by
    intro m hm
    rw [List.getElem?_map, h.taken m hm]
    rfl
  have hlt := (List.getElem?_eq_some_iff.mp (hid a ha)).1
  exact (List.getElem?_inj hlt hids).mp ((hid a ha).trans ((congrArg some he).trans (hid b hb).symm))

end Selection

theorem selected_take (s : Selection F) (i : ℕ) : ∃ t, (s.take i).selected = s.selected ++ t := by
  unfold Selection.take
  split
  · exact ⟨[], (List.append_nil _).symm⟩
  · exact ⟨_, rfl⟩

variable [RecallOps F] {value : Selection F → ScoredMemory F × ℕ → F}

/-- A round that is not blind finds a place that is not used. -/
theorem used_bestPlace (h : s.Whole originals) (hne : originals ≠ []) (hsees : ¬ Blind value s) :
    s.used (bestPlace value s) = false ∧ bestPlace value s < originals.length := by
  rw [bestPlace]
  rcases scan_cases (value s) (·.2) s.unused (lowest, 0) with ⟨hs, hnone⟩ | ⟨m, hm, hs⟩
  · rw [hs]
    exact ⟨Bool.eq_false_iff.mpr fun hused => hsees ⟨hused, hnone⟩, List.length_pos_iff.mpr hne⟩
  · rw [hs]
    obtain ⟨hget, hused⟩ := Selection.mem_unused.mp hm
    exact ⟨hused, h.length ▸ (List.getElem?_eq_some_iff.mp hget).1⟩

/-- A blind round takes from the first place. -/
theorem bestPlace_of_blind (h : Blind value s) : bestPlace value s = 0 := by
  rw [bestPlace, scan_eq_start (value s) (·.2) h.2]

theorem selectMmr_add (k : ℕ) : ∀ (n : ℕ) (s : Selection F),
    selectMmr value (n + k) s = selectMmr value k (selectMmr value n s)
  | 0, s => by rw [Nat.zero_add]; rfl
  | n + 1, s => by
    rw [Nat.succ_add]
    exact selectMmr_add k n _

/-- What was selected stays. -/
theorem selected_selectMmr (value : Selection F → ScoredMemory F × ℕ → F) :
    ∀ (n : ℕ) (s : Selection F), ∃ t, (selectMmr value n s).selected = s.selected ++ t
  | 0, s => ⟨[], (List.append_nil _).symm⟩
  | n + 1, s => by
    obtain ⟨t, ht⟩ := selected_take s (bestPlace value s)
    obtain ⟨t', ht'⟩ := selected_selectMmr value n (s.take (bestPlace value s))
    exact ⟨t ++ t', by rw [selectMmr, ht', ht, List.append_assoc]⟩

/-- As long as no round is blind, each takes another candidate. -/
theorem whole_selectMmr (value : Selection F → ScoredMemory F × ℕ → F) (hne : originals ≠ []) :
    ∀ (n : ℕ) {s : Selection F}, s.Whole originals →
    (∀ k < n, ¬ Blind value (selectMmr value k s)) →
      (selectMmr value n s).Whole originals ∧ (selectMmr value n s).selected.length = s.selected.length + n
  | 0, _, h, _ => ⟨h, rfl⟩
  | n + 1, s, h, hsees => by
    obtain ⟨hunused, hlt⟩ := used_bestPlace h hne (hsees 0 (Nat.succ_pos n))
    obtain ⟨hwhole, hlength⟩ := h.take hunused hlt
    obtain ⟨hwhole', hlength'⟩ := whole_selectMmr value hne n hwhole fun k hk => hsees (k + 1) (Nat.succ_lt_succ hk)
    exact ⟨hwhole', hlength'.trans (by rw [hlength]; omega)⟩

/-- A blind round answers an id once more. -/
theorem not_nodup_of_blind (h : s.From originals) (hblind : Blind value s) :
    ¬ ((s.take (bestPlace value s)).selected.map (·.1.record.memoryId)).Nodup := by
  obtain ⟨m, hm, hplace⟩ := Selection.used_iff.mp hblind.1
  obtain ⟨c, hc, hmc⟩ := h.taken m hm
  rw [hplace] at hc
  have hlt : 0 < s.candidates.length := h.length ▸ (List.getElem?_eq_some_iff.mp hc).1
  obtain ⟨c', hc', hleft⟩ := h.left (List.getElem?_eq_getElem hlt)
  have hname : s.candidates[0].record.memoryId = m.1.record.memoryId :=
    calc s.candidates[0].record.memoryId
      _ = c'.record.memoryId := memoryId_of_left hleft
      _ = c.record.memoryId := by rw [Option.some.inj (hc'.symm.trans hc)]
      _ = m.1.record.memoryId := (memoryId_of_left hmc).symm
  rw [bestPlace_of_blind hblind, Selection.take_of_getElem? (List.getElem?_eq_getElem hlt), List.map_append]
  intro hnodup
  exact (List.nodup_append.mp hnodup).2.2 _ (List.mem_map_of_mem hm) _ List.mem_cons_self hname.symm

omit [RecallOps F] in
/-- A draw takes one of those that are left, if it is among them. -/
theorem whole_explore (draw : ℕ → ℕ) (h : s.Whole originals) : (explore draw s).Whole originals := by
  unfold explore
  split
  · exact h
  · rename_i i hi
    obtain ⟨m, hm, rfl⟩ := List.mem_map.mp (List.mem_of_getElem? hi)
    obtain ⟨hget, hused⟩ := Selection.mem_unused.mp hm
    exact (h.take hused (h.length ▸ (List.getElem?_eq_some_iff.mp hget).1)).1

omit [RecallOps F] in
/-- A draw within its bounds takes one more. -/
theorem length_explore {draw : ℕ → ℕ} (hdraw : ∀ n, 0 < n → draw n < n) (h : s.Whole originals)
    (hlt : s.selected.length < originals.length) : (explore draw s).selected.length = s.selected.length + 1 := by
  have hplace := hdraw _ (List.length_pos_iff.mpr (h.exists_unused hlt))
  obtain ⟨m, hm, hi⟩ := List.mem_map.mp (List.getElem_mem hplace)
  obtain ⟨hget, hused⟩ := Selection.mem_unused.mp hm
  rw [explore, List.getElem?_eq_getElem hplace, ← hi]
  exact (h.take hused (h.length ▸ (List.getElem?_eq_some_iff.mp hget).1)).2

omit [RecallOps F] in
theorem selected_explore (draw : ℕ → ℕ) (s : Selection F) : ∃ t, (explore draw s).selected = s.selected ++ t := by
  unfold explore
  split
  · exact ⟨[], (List.append_nil _).symm⟩
  · exact selected_take s _

end Selecting

/-! ### Scores -/

section Scores

variable {F : Type} [RecallOps F] {candidates : List (ScoredMemory F)}

/-- The scan over the scores but the first. -/
def scanScored (m : ScoredMemory F) (ms : List (ScoredMemory F)) : F × ℕ :=
  scan (fun x : ScoredMemory F × ℕ => x.1.totalScore) (·.2 + 1) ms.zipIdx (m.totalScore, 0)

/-- It ends with the score and the place of a candidate. -/
theorem exists_scanScored (m : ScoredMemory F) (ms : List (ScoredMemory F)) :
    ∃ b, (m :: ms)[(scanScored m ms).2]? = some b ∧ (scanScored m ms).1 = b.totalScore := by
  rw [scanScored]
  rcases scan_cases (fun x : ScoredMemory F × ℕ => x.1.totalScore) (·.2 + 1) ms.zipIdx (m.totalScore, 0) with
    ⟨hs, -⟩ | ⟨x, hx, hs⟩
  · rw [hs]
    exact ⟨m, rfl, rfl⟩
  · rw [hs]
    exact ⟨x.1, List.mem_zipIdx_iff_getElem?.mp hx, rfl⟩

theorem bestScored_lt (hne : candidates ≠ []) : bestScored candidates < candidates.length := by
  cases candidates with
  | nil => exact absurd rfl hne
  | cons m ms =>
    obtain ⟨b, hb, -⟩ := exists_scanScored m ms
    exact (List.getElem?_eq_some_iff.mp hb).1

/-- No candidate has a higher score than the best one. -/
theorem exists_bestScored [IsStrictOrder F fun a b => a < b] (hne : candidates ≠ []) :
    ∃ b, candidates[bestScored candidates]? = some b ∧ ∀ c ∈ candidates, ¬ b.totalScore < c.totalScore := by
  cases candidates with
  | nil => exact absurd rfl hne
  | cons m ms =>
    obtain ⟨b, hb, hscore⟩ := exists_scanScored m ms
    refine ⟨b, hb, fun c hc => ?_⟩
    rw [← hscore]
    rcases List.mem_cons.mp hc with rfl | hc
    · exact not_lt_of_not_lt _ _ ms.zipIdx _ (irrefl_of (fun a b : F => a < b) c.totalScore)
    · obtain ⟨i, hi⟩ := List.getElem?_of_mem hc
      exact not_lt_of_mem _ _ ms.zipIdx _ (c, i) (List.mem_zipIdx_iff_getElem?.mpr hi)

omit [RecallOps F] in
/-- A reranker sets scores. -/
theorem exists_of_mem_reranked (reranker : Option (Reranker F)) {m : ScoredMemory F}
    (h : m ∈ reranked reranker candidates) : ∃ c ∈ candidates, m = { c with totalScore := m.totalScore } := by
  have hone : ∀ (r : ℕ × F) {ms : List (ScoredMemory F)}, ∀ m ∈ rescore ms r,
      ∃ c ∈ ms, m = { c with totalScore := m.totalScore } := by
    intro r ms m hm
    obtain ⟨i, hi⟩ := List.getElem?_of_mem hm
    rw [rescore, List.getElem?_modify] at hi
    obtain ⟨c, hc, rfl⟩ := Option.map_eq_some_iff.mp hi
    refine ⟨c, List.mem_of_getElem? hc, ?_⟩
    split
    · rfl
    · rfl
  have hfold : ∀ (scores : List (ℕ × F)) {ms : List (ScoredMemory F)}, ∀ m ∈ scores.foldl rescore ms,
      ∃ c ∈ ms, m = { c with totalScore := m.totalScore } := by
    intro scores
    induction scores with
    | nil => exact fun m hm => ⟨m, hm, rfl⟩
    | cons r scores ih =>
      intro ms m hm
      obtain ⟨c, hc, hmc⟩ := ih m hm
      obtain ⟨c', hc', hcc⟩ := hone r c hc
      exact ⟨c', hc', by rw [hmc, hcc]⟩
  unfold reranked at h
  split at h
  · dsimp only at h
    split at h
    · exact ⟨m, h, rfl⟩
    · exact hfold _ m h
  · exact ⟨m, h, rfl⟩

omit [RecallOps F] in
theorem nodup_reranked (reranker : Option (Reranker F)) (hids : (candidates.map (·.record.memoryId)).Nodup) :
    ((reranked reranker candidates).map (·.record.memoryId)).Nodup := by
  have hrecords := congrArg (List.map fun r => r.memoryId) (record_reranked reranker candidates)
  rw [List.map_map, List.map_map] at hrecords
  exact hrecords ▸ hids

end Scores

/-! ### Ranking -/

section Ranking

variable {F : Type} [RecallOps F] (p : EntityPatterns) {candidates : List (ScoredMemory F)} {topK : ℕ} {draw : ℕ → ℕ}

/-- What the rounds leave. -/
def chosen (candidates : List (ScoredMemory F)) (topK : ℕ) : Selection F :=
  selectMmr (mmrOf p candidates) (selectK candidates.length topK - 1) (firstSelected candidates)

theorem fuse_few (h : candidates.length ≤ topK) : fuse p draw candidates topK =
    rebalance p candidates.length (candidates.insertionSort fun a b => ¬ a.totalScore < b.totalScore) [] 0 :=
  if_pos h

theorem fuse_many (h : topK < candidates.length) : fuse p draw candidates topK =
    (if selectK candidates.length topK < topK then explore draw (chosen p candidates topK)
      else chosen p candidates topK).selected.map (·.1) :=
  if_neg (Nat.not_le.mpr h)

theorem fuse_few_perm (h : candidates.length ≤ topK) : (fuse p draw candidates topK).Perm candidates := by
  have hsorted := List.perm_insertionSort (fun a b : ScoredMemory F => ¬ a.totalScore < b.totalScore) candidates
  rw [fuse_few p h]
  exact (rebalance_perm p hsorted.length_eq).trans hsorted

theorem whole_firstSelected (hne : candidates ≠ []) :
    (firstSelected candidates).Whole candidates ∧ (firstSelected candidates).selected.length = 1 :=
  (Selection.Whole.start candidates).take rfl (bestScored_lt hne)

theorem from_firstSelected (candidates : List (ScoredMemory F)) : (firstSelected candidates).From candidates :=
  (Selection.From.start candidates).take _

/-- What is answered of many starts with what the rounds leave. -/
theorem fuse_many_prefix (draw : ℕ → ℕ) (h : topK < candidates.length) :
    ∃ t, fuse p draw candidates topK = (chosen p candidates topK).selected.map (·.1) ++ t := by
  rw [fuse_many p h]
  split
  · obtain ⟨t, ht⟩ := selected_explore draw (chosen p candidates topK)
    exact ⟨t.map (·.1), by rw [ht, List.map_append]⟩
  · exact ⟨[], (List.append_nil _).symm⟩

/-- A selection that sees leaves different candidates, as many as rounds were made. -/
theorem whole_chosen (hlt : topK < candidates.length) (hsees : Sees p candidates topK) :
    (chosen p candidates topK).Whole candidates ∧
      (chosen p candidates topK).selected.length = 1 + (selectK candidates.length topK - 1) := by
  have hne : candidates ≠ [] := List.length_pos_iff.mp (Nat.zero_lt_of_lt hlt)
  obtain ⟨hfirst, hone⟩ := whole_firstSelected hne
  obtain ⟨hwhole, hlength⟩ := whole_selectMmr _ hne _ hfirst (hsees hlt)
  exact ⟨hwhole, hlength.trans (by rw [hone])⟩

/-- What a selection that sees answers are candidates, each once. -/
theorem fuse_distinct (draw : ℕ → ℕ) (hids : (candidates.map (·.record.memoryId)).Nodup)
    (hsees : Sees p candidates topK) :
    (∀ m ∈ fuse p draw candidates topK, m ∈ candidates) ∧
      ((fuse p draw candidates topK).map (·.record.memoryId)).Nodup := by
  rcases Nat.lt_or_ge topK candidates.length with hlt | hfew
  · obtain ⟨hwhole, -⟩ := whole_chosen p hlt hsees
    have hall : ∀ s : Selection F, s.Whole candidates → (∀ m ∈ s.selected.map (·.1), m ∈ candidates) ∧
        ((s.selected.map (·.1)).map (·.record.memoryId)).Nodup := by
      intro s hs
      refine ⟨fun m hm => ?_, by rw [List.map_map]; exact hs.distinct hids⟩
      obtain ⟨m', hm', rfl⟩ := List.mem_map.mp hm
      exact List.mem_of_getElem? (hs.taken m' hm')
    rw [fuse_many p hlt]
    split
    · exact hall _ (whole_explore draw hwhole)
    · exact hall _ hwhole
  · have hperm : (fuse p draw candidates topK).Perm candidates := fuse_few_perm p hfew
    exact ⟨fun m hm => hperm.mem_iff.mp hm, (hperm.map (·.record.memoryId)).nodup_iff.mpr hids⟩

/-- It answers as many as there is room for, unless the only place is kept for a draw. -/
theorem length_fuse (hdraw : ∀ n, 0 < n → draw n < n) (htop : 1 ≤ topK) (hsees : Sees p candidates topK) :
    (fuse p draw candidates topK).length =
      if topK = 1 ∧ 4 ≤ candidates.length then 2 else min topK candidates.length := by
  rcases Nat.lt_or_ge topK candidates.length with hlt | hfew
  · obtain ⟨hwhole, hchosen⟩ := whole_chosen p hlt hsees
    rw [fuse_many p hlt]
    by_cases hmany : topK + 2 < candidates.length
    · have hk : selectK candidates.length topK = topK - 1 := by
        rw [selectK, if_pos hmany, if_neg (Nat.ne_of_gt htop)]
      rw [hk] at hchosen ⊢
      rw [if_pos (by omega), List.length_map, length_explore hdraw hwhole (by omega)]
      split
      all_goals omega
    · have hk : selectK candidates.length topK = topK := if_neg hmany
      rw [hk] at hchosen ⊢
      rw [if_neg (by omega), List.length_map, if_neg (by omega)]
      omega
  · rw [(fuse_few_perm p hfew).length_eq, if_neg (by omega)]
    omega

/-- A blind round shows in the answer. -/
theorem sees_of_distinct (h : ((fuse p draw candidates topK).map (·.record.memoryId)).Nodup) :
    Sees p candidates topK := by
  intro hlt k hk hblind
  let state := selectMmr (mmrOf p candidates) k (firstSelected candidates)
  obtain ⟨d, hd⟩ := Nat.exists_eq_add_of_lt hk
  have hchosen : chosen p candidates topK =
      selectMmr (mmrOf p candidates) d (state.take (bestPlace (mmrOf p candidates) state)) := by
    rw [chosen, hd, Nat.add_assoc, selectMmr_add]
    rfl
  obtain ⟨t, ht⟩ := fuse_many_prefix p draw hlt
  obtain ⟨t', ht'⟩ := selected_selectMmr (mmrOf p candidates) d
    (state.take (bestPlace (mmrOf p candidates) state))
  rw [ht, List.map_append] at h
  have hrounds := (List.nodup_append.mp h).1
  rw [hchosen, ht', List.map_map, List.map_append] at hrounds
  exact not_nodup_of_blind (from_selectMmr k (from_firstSelected candidates)) hblind (List.nodup_append.mp hrounds).1

/-- One with the highest score is answered. -/
theorem exists_highest [IsStrictOrder F fun a b => a < b] (hne : candidates ≠ []) :
    ∃ m ∈ fuse p draw candidates topK, ∀ c ∈ candidates, ¬ m.totalScore < c.totalScore := by
  rcases Nat.lt_or_ge topK candidates.length with hlt | hfew
  · obtain ⟨b, hb, hbest⟩ := exists_bestScored hne
    have hmem : (b, bestScored candidates) ∈ (firstSelected candidates).selected := by
      rw [firstSelected, Selection.take_of_getElem? hb]
      exact List.mem_singleton_self _
    obtain ⟨t, ht⟩ := fuse_many_prefix p draw hlt
    obtain ⟨t', ht'⟩ := selected_selectMmr (mmrOf p candidates) (selectK candidates.length topK - 1)
      (firstSelected candidates)
    refine ⟨b, ?_, hbest⟩
    rw [ht, chosen, ht']
    exact List.mem_append_left t (List.mem_map_of_mem (List.mem_append_left t' hmem))
  · obtain ⟨b, hb, hbest⟩ := exists_bestScored hne
    exact ⟨b, (fuse_few_perm p hfew).mem_iff.mpr (List.mem_of_getElem? hb), hbest⟩

/-- If every candidate has a value above the least float, no round is blind. -/
theorem sees_of_rated (htop : 1 ≤ topK) (h : Rated p candidates) : Sees p candidates topK := by
  intro hlt k hk
  have hne : candidates ≠ [] := List.length_pos_iff.mp (Nat.zero_lt_of_lt hlt)
  obtain ⟨hfirst, hone⟩ := whole_firstSelected hne
  have hroom : selectK candidates.length topK ≤ topK := by
    unfold selectK
    rw [if_neg (Nat.ne_of_gt htop)]
    split
    · exact Nat.sub_le topK 1
    · exact Nat.le_refl topK
  -- up to round `k` something is left, which is rated, so that the round is not blind
  induction k using Nat.strong_induction_on with
  | _ k ih =>
    obtain ⟨hwhole, hlength⟩ := whole_selectMmr (mmrOf p candidates) hne k hfirst fun j hj =>
      ih j hj (Nat.lt_trans hj hk)
    obtain ⟨i, hi⟩ := List.exists_mem_of_ne_nil _ (hwhole.exists_unused (by omega))
    obtain ⟨m, hm, -⟩ := List.mem_map.mp hi
    exact fun hblind => hblind.2 m hm (h _ (from_selectMmr k (from_firstSelected candidates)) m hm)

/-- **The places of an answer.** As many different candidates are answered as there is
room for, and one with the highest score, if and only if there is not one place only
for four candidates or more and no round of the selection is blind. -/
theorem ranks_iff [IsStrictOrder F fun a b => a < b] (reranker : Option (Reranker F)) (htop : 1 ≤ topK)
    (hids : (candidates.map (·.record.memoryId)).Nodup) (hdraw : ∀ n, 0 < n → draw n < n) :
    Ranks reranker candidates topK (rankAndFuse p reranker draw candidates topK) ↔
      ¬ (topK = 1 ∧ 4 ≤ candidates.length) ∧ Sees p (reranked reranker candidates) topK := by
  have hlength : (reranked reranker candidates).length = candidates.length := by
    rw [← List.length_map (·.record), record_reranked, List.length_map]
  have hids' := nodup_reranked reranker hids
  constructor
  · intro h
    have hsees : Sees p (reranked reranker candidates) topK := sees_of_distinct p h.distinct
    refine ⟨fun ⟨hone, hfour⟩ => ?_, hsees⟩
    have hmin := h.length
    rw [rankAndFuse, length_fuse p hdraw htop hsees, if_pos ⟨hone, hlength ▸ hfour⟩] at hmin
    omega
  · rintro ⟨hroom, hsees⟩
    obtain ⟨hamong, hdistinct⟩ := fuse_distinct p draw hids' hsees
    refine ⟨?_, fun m hm => exists_of_mem_reranked reranker (hamong m hm), hdistinct, fun hne => ?_⟩
    · rw [rankAndFuse, length_fuse p hdraw htop hsees, if_neg (hlength.symm ▸ hroom), hlength]
    · exact exists_highest p fun hnil => hne (List.length_eq_zero_iff.mp (by rw [← hlength, hnil]; rfl))

end Ranking

/-! ### A draw for the only place, and a blind round -/

instance Fixed.strictOrder : IsStrictOrder Fixed fun a b => a < b :=
  inferInstanceAs (IsStrictOrder ℚ fun a b => a < b)

def scoredNote (id : UInt64) (score : ℚ) : ScoredMemory Fixed where
  record := { MemoryRecord.zero with memoryId := id }
  totalScore := score
  semanticScore := score
  keywordScore := (0 : ℚ)
  graphScore := (0 : ℚ)
  recencyScore := (0 : ℚ)
  embedding := []

def threeNotes : List (ScoredMemory Fixed) := [scoredNote 1 (1 / 2), scoredNote 2 (1 / 4), scoredNote 3 (1 / 8)]

def fourNotes : List (ScoredMemory Fixed) := threeNotes ++ [scoredNote 4 (1 / 16)]

/-- The first is far better than the others. -/
def farApart : List (ScoredMemory Fixed) :=
  [scoredNote 1 (1 / 2), scoredNote 2 (-340282366920938463463374607431768211455),
    scoredNote 3 (-340282366920938463463374607431768211455)]

theorem ranks_threeNotes : Ranks none threeNotes 2 (rankAndFuse .silent none (fun _ => 0) threeNotes 2) ↔
    ¬ (2 = 1 ∧ 4 ≤ threeNotes.length) ∧ Sees .silent (reranked none threeNotes) 2 :=
  ranks_iff .silent none (by decide) (by decide) fun _ h => h

/-- Of four, two are answered instead of one. Of three, the first is answered twice
instead of two. -/
theorem not_ranks_notes : (fourNotes.map (·.record.memoryId)).Nodup ∧ (farApart.map (·.record.memoryId)).Nodup ∧
    ¬ Ranks none fourNotes 1 (rankAndFuse .silent none (fun _ => 0) fourNotes 1) ∧
    ¬ Ranks none farApart 2 (rankAndFuse .silent none (fun _ => 0) farApart 2) := by
  refine ⟨by decide, by decide, fun h => absurd h.length ?_, fun h => absurd h.distinct ?_⟩
  · decide +kernel
  · decide +kernel

end Retrieval
end Amind
