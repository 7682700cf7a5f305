/-
# The filter of stale aggregates

An aggregate is a memory with several ids of one pattern. It is dropped from a list
of candidates if a newer one has an id of one of its patterns that it lacks. The
ids of a text are any function of it.

Each candidate is held against all the others, those that are dropped included. So
who is dropped is a question to the candidate and to the set of the candidates, and
not to their order (`apply_eq`): in a list put in any order, the same are dropped
(`apply_drops`). A newest candidate never is.

Key definitions: `apply`, `stale`.
Key theorems: `apply_eq`, `stale_witness`, `apply_drops`.
-/
import Amind.Observability.MemoryEvent
import Amind.Retrieval.Ranking

namespace Amind
namespace Retrieval
namespace AggregateStalenessFilter

open Amind.Core Amind.Observability

structure Config extends StalenessConfig where
  enabled : Bool := true

/-- A memory with its score. The record may be missing. -/
structure ScoredCandidate (F : Type) where
  memoryId : UInt64
  score : F
  record : Option (MemoryRecord F)

/-- What the filter looks at: the ids of each pattern, without repetitions, and
whether the text is a list. -/
structure CandFeat where
  idsByPattern : List (String × List Text) := []
  listLayout : Bool := false

/-- What is left, how many were dropped, and what is logged about them. -/
structure Applied (F : Type) where
  kept : List (ScoredCandidate F)
  dropped : ℕ
  events : List MemoryEvent

/-! ### The ids of a memory -/

/-- Add ids to the set of a pattern. -/
def addIds (name : String) (ids : List Text) : List (String × List Text) → List (String × List Text)
  | [] => [(name, ids ∪ [])]
  | s :: sets => if s.1 = name then (name, ids ∪ s.2) :: sets else s :: addIds name ids sets

/-- The sets of ids, by pattern. -/
def byPattern (extracted : List (String × List Text)) : List (String × List Text) :=
  extracted.foldl (fun sets e => addIds e.1 e.2 sets) []

/-- The pattern has the id. -/
def Has (sets : List (String × List Text)) (name : String) (id : Text) : Prop :=
  ∃ ids, (name, ids) ∈ sets ∧ id ∈ ids

variable {name n : String} {id : Text} {ids : List Text}

theorem has_cons {s : String × List Text} {sets : List (String × List Text)} :
    Has (s :: sets) n id ↔ (s.1 = n ∧ id ∈ s.2) ∨ Has sets n id := by
  constructor
  · rintro ⟨ids, hmem, hid⟩
    rcases List.mem_cons.mp hmem with rfl | hmem
    · exact .inl ⟨rfl, hid⟩
    · exact .inr ⟨ids, hmem, hid⟩
  · rintro (⟨rfl, hid⟩ | ⟨ids, hmem, hid⟩)
    · exact ⟨s.2, List.mem_cons_self, hid⟩
    · exact ⟨ids, List.mem_cons_of_mem _ hmem, hid⟩

theorem has_addIds : ∀ {sets : List (String × List Text)},
    Has (addIds name ids sets) n id ↔ (name = n ∧ id ∈ ids) ∨ Has sets n id
  | [] => by
    rw [addIds, has_cons, List.mem_union_iff]
    simp
  | s :: sets => by
    rw [addIds]
    split
    · rename_i hs
      rw [has_cons, has_cons, hs, List.mem_union_iff]
      tauto
    · rw [has_cons, has_cons, has_addIds]
      tauto

theorem mem_keys_addIds : ∀ {sets : List (String × List Text)},
    n ∈ (addIds name ids sets).map (·.1) ↔ n = name ∨ n ∈ sets.map (·.1)
  | [] => by simp [addIds]
  | s :: sets => by
    rw [addIds]
    split
    · rename_i hs
      simp [hs]
    · rw [List.map_cons, List.mem_cons, mem_keys_addIds, List.map_cons, List.mem_cons]
      tauto

theorem nodup_addIds : ∀ {sets : List (String × List Text)}, (sets.map (·.1)).Nodup →
    ((addIds name ids sets).map (·.1)).Nodup
  | [], _ => List.nodup_singleton _
  | s :: sets, h => by
    obtain ⟨hnot, hrest⟩ := List.nodup_cons.mp h
    rw [addIds]
    split
    · rename_i hs
      rw [List.map_cons, ← hs]
      exact h
    · rename_i hs
      refine List.nodup_cons.mpr ⟨fun hmem => ?_, nodup_addIds hrest⟩
      rcases mem_keys_addIds.mp hmem with he | hmem
      · exact hs he
      · exact hnot hmem

theorem byPattern_append (extracted : List (String × List Text)) (e : String × List Text) :
    byPattern (extracted ++ [e]) = addIds e.1 e.2 (byPattern extracted) := by
  rw [byPattern, List.foldl_append]
  rfl

/-- The sets have the ids that were extracted. -/
theorem has_byPattern {extracted : List (String × List Text)} :
    Has (byPattern extracted) n id ↔ Has extracted n id := by
  induction extracted using List.reverseRecOn with
  | nil => rfl
  | append_singleton extracted e ih =>
    rw [byPattern_append, has_addIds, ih]
    simp only [Has, List.mem_append, List.mem_singleton]
    constructor
    · rintro (⟨rfl, hid⟩ | ⟨ids, hmem, hid⟩)
      · exact ⟨e.2, .inr rfl, hid⟩
      · exact ⟨ids, .inl hmem, hid⟩
    · rintro ⟨ids, hmem | rfl, hid⟩
      · exact .inr ⟨ids, hmem, hid⟩
      · exact .inl ⟨rfl, hid⟩

theorem mem_keys_byPattern {extracted : List (String × List Text)} :
    n ∈ (byPattern extracted).map (·.1) ↔ n ∈ extracted.map (·.1) := by
  induction extracted using List.reverseRecOn with
  | nil => rfl
  | append_singleton extracted e ih =>
    rw [byPattern_append, mem_keys_addIds, ih, List.map_append, List.mem_append, List.map_singleton,
      List.mem_singleton, or_comm]

/-- Each pattern has one set. -/
theorem nodup_byPattern (extracted : List (String × List Text)) : ((byPattern extracted).map (·.1)).Nodup := by
  induction extracted using List.reverseRecOn with
  | nil => exact List.nodup_nil
  | append_singleton extracted e ih => exact byPattern_append extracted e ▸ nodup_addIds ih

/-- An id that a set lacks is not in its pattern. -/
theorem not_has_of_not_mem {sets : List (String × List Text)} (hn : (sets.map (·.1)).Nodup)
    (hmem : (name, ids) ∈ sets) (hid : id ∉ ids) : ¬ Has sets name id := by
  rintro ⟨ids', hmem', hid'⟩
  obtain ⟨-, rfl⟩ := Prod.mk.inj (List.inj_on_of_nodup_map hn hmem hmem' rfl)
  exact hid hid'

section Filter

variable {F : Type} (extractIds : Text → List (String × List Text)) (cfg : Config)

def featOf (c : ScoredCandidate F) : CandFeat :=
  match c.record with
  | none => {}
  | some r => { idsByPattern := byPattern (extractIds r.content), listLayout := looksLikeListLayout r.content }

def isAggregate (f : CandFeat) : Bool :=
  f.idsByPattern.any fun s =>
    decide (cfg.minIdsToBeAggregate ≤ s.2.length) ||
      (f.listLayout && cfg.alsoMatchTableFormat && decide (cfg.minIdsToBeAggregate ≤ s.2.length + 1))

/-- The ids of a pattern that another candidate has, if it is newer than the
aggregate, and the aggregate lacks. -/
def newIds (r : MemoryRecord F) (s : String × List Text) (other : ScoredCandidate F × CandFeat) : List Text :=
  match other.1.record with
  | none => []
  | some r' =>
    if r'.createdAt ≤ r.createdAt then []
    else ((other.2.idsByPattern.lookup s.1).getD []).filter fun id => !s.2.contains id

/-- For each pattern of the aggregate, and each other candidate that has a new id
of it, those ids. -/
def witnesses (feats : List (ScoredCandidate F × CandFeat)) (i : ℕ) (r : MemoryRecord F) (f : CandFeat) :
    List (List Text) :=
  f.idsByPattern.flatMap fun s => feats.zipIdx.filterMap fun other =>
    if other.2 = i then none
    else if newIds r s other.1 = [] then none
    else some (newIds r s other.1)

/-- The order of texts in a set. -/
def sorted (ids : List Text) : List Text := ids.dedup.mergeSort fun a b => decide (¬ b < a)

def joinPipe (items : List Text) : Text := (items.intersperse (Utf8.bytes "|")).flatten

section Events

variable [FloatOps F] (query namespaceHint : Text)

/-- What is logged about a dropped aggregate. -/
def event (c : ScoredCandidate F) (r : MemoryRecord F) (f : CandFeat) (found : List (List Text)) : MemoryEvent where
  memoryId := c.memoryId
  agentId := namespaceHint
  kind := .recallStale
  status := .ok
  summary := truncateUtf8 r.content 80
  attrs :=
    [("action", Utf8.bytes "Filter"),
      ("aggregate_created_at", Utf8.bytes (toString r.createdAt.toNat)),
      ("newer_fact_count", Utf8.bytes (toString found.length)),
      ("pre_score", toText c.score),
      ("query", query),
      ("witness_in_aggregate", joinPipe (sorted (f.idsByPattern.flatMap (·.2)))),
      ("witness_in_newer", joinPipe (sorted found.flatten))]

/-- Go through candidates: which are dropped, how many they are, and what is logged. -/
def scan (feats : List (ScoredCandidate F × CandFeat)) :
    List ((ScoredCandidate F × CandFeat) × ℕ) → List Bool × ℕ × List MemoryEvent
  | [] => ([], 0, [])
  | ((c, f), i) :: rest =>
    let (drop, dropped, events) := scan feats rest
    match c.record with
    | none => (false :: drop, dropped, events)
    | some r =>
      if isAggregate cfg f && !(witnesses feats i r f).isEmpty then
        (true :: drop, dropped + 1, event query namespaceHint c r f (witnesses feats i r f) :: events)
      else (false :: drop, dropped, events)

/-- Drop the aggregates that are stale. -/
def apply (cs : List (ScoredCandidate F)) : Applied F :=
  if !cfg.enabled then ⟨cs, 0, []⟩
  else if cs.length < 2 then ⟨cs, 0, []⟩
  else
    let feats := cs.map fun c => (c, featOf extractIds c)
    let (drop, dropped, events) := scan cfg query namespaceHint feats feats.zipIdx
    if 0 < dropped then ⟨((cs.zip drop).filter fun e => !e.2).map (·.1), dropped, events⟩ else ⟨cs, dropped, events⟩

end Events

/-! ### Who is stale -/

/-- An aggregate among the candidates, of which another has a new id. -/
def stale (cs : List (ScoredCandidate F)) (c : ScoredCandidate F) : Bool :=
  match c.record with
  | none => false
  | some r => cfg.enabled && isAggregate cfg (featOf extractIds c) && (featOf extractIds c).idsByPattern.any fun s =>
      cs.any fun o => !(newIds r s (o, featOf extractIds o)).isEmpty

/-- The record has an id of the pattern. -/
def Carries (r : MemoryRecord F) (name : String) (id : Text) : Prop := Has (extractIds r.content) name id

variable {extractIds cfg} {cs cs' : List (ScoredCandidate F)} {c : ScoredCandidate F} {r : MemoryRecord F}

/-- New ids are of a newer candidate, and not in the set. -/
theorem exists_of_newIds {s : String × List Text} {o : ScoredCandidate F}
    (h : newIds r s (o, featOf extractIds o) ≠ []) :
    ∃ r', o.record = some r' ∧ r.createdAt < r'.createdAt ∧ ∃ id, Carries extractIds r' s.1 id ∧ id ∉ s.2 := by
  cases ho : o.record with
  | none => simp [newIds, ho] at h
  | some r' =>
    simp only [newIds, ho, featOf] at h
    split at h
    · exact absurd rfl h
    · rename_i hnewer
      obtain ⟨id, hid⟩ := List.exists_mem_of_ne_nil _ h
      obtain ⟨hmem, hlacks⟩ := List.mem_filter.mp hid
      refine ⟨r', rfl, UInt32.not_le.mp hnewer, id, ?_, by simpa using hlacks⟩
      cases hset : (byPattern (extractIds r'.content)).lookup s.1 with
      | none => simp [hset] at hmem
      | some ids =>
        rw [hset] at hmem
        obtain ⟨front, back, hsplit, -⟩ := List.lookup_eq_some_iff.mp hset
        exact has_byPattern.mp ⟨ids, hsplit ▸ List.mem_append_right _ List.mem_cons_self, hmem⟩

/-- **Who is stale.** A newer candidate has an id, of a pattern of the memory, that
the memory lacks. -/
theorem stale_witness (hc : c.record = some r) (h : stale extractIds cfg cs c = true) :
    ∃ o ∈ cs, ∃ r', o.record = some r' ∧ r.createdAt < r'.createdAt ∧
      ∃ name ∈ (extractIds r.content).map (·.1), ∃ id,
        Carries extractIds r' name id ∧ ¬ Carries extractIds r name id := by
  rw [stale, hc] at h
  obtain ⟨-, h⟩ := Bool.and_eq_true_iff.mp h
  obtain ⟨s, hs, h⟩ := List.any_eq_true.mp h
  obtain ⟨o, ho, h⟩ := List.any_eq_true.mp h
  have hfeat : (featOf extractIds c).idsByPattern = byPattern (extractIds r.content) := by rw [featOf, hc]
  rw [hfeat] at hs
  obtain ⟨r', hr', hnewer, id, hcarries, hlacks⟩ := exists_of_newIds (by simpa using h)
  refine ⟨o, ho, r', hr', hnewer, s.1, mem_keys_byPattern.mp (List.mem_map_of_mem hs), id, hcarries, fun hhas => ?_⟩
  exact not_has_of_not_mem (nodup_byPattern _) hs hlacks (has_byPattern.mpr hhas)

/-- Who is stale is a question to the set of candidates. -/
theorem stale_congr (h : ∀ o, o ∈ cs ↔ o ∈ cs') : stale extractIds cfg cs c = stale extractIds cfg cs' c := by
  have hany : ∀ f : ScoredCandidate F → Bool, cs.any f = cs'.any f := by
    intro f
    rw [Bool.eq_iff_iff, List.any_eq_true, List.any_eq_true]
    simp only [h]
  unfold stale
  split
  · rfl
  · simp only [hany]

/-- A candidate has no new ids for itself. -/
theorem newIds_self {s : String × List Text} {f : CandFeat} (hc : c.record = some r) : newIds r s (c, f) = [] := by
  simp only [newIds, hc]
  exact if_pos (UInt32.le_refl _)

/-- The others at other places have witnesses if and only if any candidate has. -/
theorem witnesses_isEmpty {feats : List (ScoredCandidate F × CandFeat)} {i : ℕ} {f : CandFeat}
    (hi : feats[i]? = some (c, f)) (hc : c.record = some r) :
    (!(witnesses feats i r f).isEmpty) = f.idsByPattern.any fun s => feats.any fun o => !(newIds r s o).isEmpty := by
  rw [Bool.eq_iff_iff, Bool.not_eq_true', List.isEmpty_eq_false_iff_exists_mem, List.any_eq_true]
  constructor
  · rintro ⟨ids, hids⟩
    obtain ⟨s, hs, hids⟩ := List.mem_flatMap.mp hids
    obtain ⟨⟨o, j⟩, ho, hids⟩ := List.mem_filterMap.mp hids
    refine ⟨s, hs, List.any_eq_true.mpr ⟨o, (List.mem_zipIdx' ho).2 ▸ List.getElem_mem _, ?_⟩⟩
    grind
  · rintro ⟨s, hs, h⟩
    obtain ⟨o, ho, h⟩ := List.any_eq_true.mp h
    obtain ⟨j, hj, rfl⟩ := List.getElem_of_mem ho
    have hnew : newIds r s feats[j] ≠ [] := by simpa using h
    have hne : j ≠ i := by
      rintro rfl
      rw [List.getElem?_eq_getElem hj] at hi
      exact hnew (Option.some.inj hi ▸ newIds_self hc)
    refine ⟨newIds r s feats[j], List.mem_flatMap.mpr ⟨s, hs, List.mem_filterMap.mpr ⟨(feats[j], j), ?_, ?_⟩⟩⟩
    · exact List.mk_mem_zipIdx_iff_getElem?.mpr (List.getElem?_eq_getElem hj)
    · rw [if_neg hne, if_neg hnew]

section Apply

variable [FloatOps F] (query namespaceHint : Text)

/-- The loop marks who is stale, and counts the marks. -/
theorem scan_eq (henabled : cfg.enabled = true) {feats : List (ScoredCandidate F × CandFeat)}
    (hfeats : feats = cs.map fun c => (c, featOf extractIds c)) :
    ∀ {todo : List ((ScoredCandidate F × CandFeat) × ℕ)}, (∀ e ∈ todo, feats[e.2]? = some e.1) →
      (scan cfg query namespaceHint feats todo).1 = (todo.map (·.1.1)).map (stale extractIds cfg cs) ∧
      (scan cfg query namespaceHint feats todo).2.1 = (todo.map (·.1.1)).countP (stale extractIds cfg cs)
  | [], _ => ⟨rfl, rfl⟩
  | ((c, f), i) :: rest, h => by
    obtain ⟨hi, hrest⟩ := List.forall_mem_cons.mp h
    obtain ⟨ih, ihcount⟩ := scan_eq henabled hfeats hrest
    have hf : f = featOf extractIds c := by
      obtain ⟨o, -, he⟩ := List.mem_map.mp (hfeats ▸ List.mem_of_getElem? hi)
      obtain ⟨rfl, rfl⟩ := Prod.mk.inj he
      rfl
    rw [List.map_cons, List.map_cons, List.countP_cons, scan]
    cases hc : c.record with
    | none =>
      have hno : stale extractIds cfg cs c = false := by rw [stale, hc]
      simp [ih, ihcount, hno]
    | some r =>
      have hs : stale extractIds cfg cs c = (isAggregate cfg f && !(witnesses feats i r f).isEmpty) := by
        rw [witnesses_isEmpty hi hc, stale, hc, henabled, ← hf, hfeats]
        simp only [List.any_map, Function.comp_def, Bool.true_and]
      by_cases hmark : (isAggregate cfg f && !(witnesses feats i r f).isEmpty) = true
      · simp [ih, ihcount, hs, hmark]
      · simp [ih, ihcount, hs, hmark]

theorem scan_whole (henabled : cfg.enabled = true) (cs : List (ScoredCandidate F)) :
    let feats := cs.map fun c => (c, featOf extractIds c)
    (scan cfg query namespaceHint feats feats.zipIdx).1 = cs.map (stale extractIds cfg cs) ∧
      (scan cfg query namespaceHint feats feats.zipIdx).2.1 = cs.countP (stale extractIds cfg cs) := by
  intro feats
  have hfirst : feats.zipIdx.map (·.1.1) = cs := by
    calc feats.zipIdx.map (·.1.1) = (feats.zipIdx.map Prod.fst).map (·.1) := by rw [List.map_map]; rfl
      _ = feats.map (·.1) := by rw [List.zipIdx_map_fst]
      _ = cs := by rw [List.map_map]; exact List.map_id cs
  have hplace : ∀ e ∈ feats.zipIdx, feats[e.2]? = some e.1 := fun _ he => List.mem_zipIdx_iff_getElem?.mp he
  have h := scan_eq query namespaceHint henabled rfl hplace
  rwa [hfirst] at h

theorem unmarked_eq {α : Type} (f : α → Bool) (xs : List α) :
    ((xs.zip (xs.map f)).filter fun e => !e.2).map (·.1) = xs.filter fun x => !f x := by
  induction xs with
  | nil => rfl
  | cons x xs ih =>
    rw [List.map_cons, List.zip_cons_cons]
    by_cases h : f x = true
    · simp [h, ih]
    · simp [h, ih]

omit [FloatOps F] in
/-- A candidate alone is not stale. -/
theorem not_stale_of_short (h : cs.length < 2) (hmem : c ∈ cs) : stale extractIds cfg cs c = false := by
  by_contra hs
  rw [Bool.not_eq_false] at hs
  cases hc : c.record with
  | none => simp [stale, hc] at hs
  | some r =>
    obtain ⟨o, ho, r', hr', hnewer, -⟩ := stale_witness hc hs
    obtain ⟨x, rfl⟩ := List.length_eq_one_iff.mp (by have := List.length_pos_of_mem hmem; omega : cs.length = 1)
    obtain rfl := List.mem_singleton.mp hmem
    obtain rfl := List.mem_singleton.mp ho
    rw [hc] at hr'
    obtain rfl := Option.some.inj hr'
    exact UInt32.lt_irrefl _ hnewer

variable (extractIds cfg) in
/-- **Who is dropped.** The filter leaves the candidates that are not stale, as they
stood, and counts those that are. -/
theorem apply_eq (cs : List (ScoredCandidate F)) :
    (apply extractIds cfg query namespaceHint cs).kept = cs.filter (fun c => !stale extractIds cfg cs c) ∧
      (apply extractIds cfg query namespaceHint cs).dropped = cs.countP (stale extractIds cfg cs) := by
  -- nobody is stale where nothing is looked at
  have hnone : (∀ c ∈ cs, stale extractIds cfg cs c = false) →
      cs = cs.filter (fun c => !stale extractIds cfg cs c) ∧ 0 = cs.countP (stale extractIds cfg cs) := by
    intro h
    constructor
    · exact (List.filter_eq_self.mpr fun c hc => by rw [h c hc]; rfl).symm
    · exact (List.countP_eq_zero.mpr fun c hc => by rw [h c hc]; exact Bool.false_ne_true).symm
  unfold apply
  split
  · rename_i hoff
    refine hnone fun c _ => ?_
    unfold stale
    split
    · rfl
    · rw [show cfg.enabled = false by simpa using hoff, Bool.false_and, Bool.false_and]
  · rename_i hon
    split
    · rename_i hshort
      exact hnone fun c hc => not_stale_of_short hshort hc
    · have henabled : cfg.enabled = true := by simpa using hon
      obtain ⟨hmarks, hcount⟩ := scan_whole query namespaceHint henabled cs
      dsimp only
      split
      · exact ⟨by rw [hmarks, unmarked_eq], hcount⟩
      · rename_i hzero
        rw [hcount] at hzero
        have hno := List.countP_eq_zero.mp (Nat.eq_zero_of_not_pos hzero)
        exact ⟨(hnone fun c hc => by simpa using hno c hc).1, hcount⟩

/-- **The filter.** What it leaves is what there was, in its order, without so many
candidates as it says. There is one set of memories that it drops, in whatever order
the candidates come. None of them is a newest one, and of each a strictly newer
candidate has an id of one of its patterns that it lacks. -/
theorem apply_drops (cs : List (ScoredCandidate F)) :
    let out := apply extractIds cfg query namespaceHint cs
    out.kept.Sublist cs ∧ out.dropped + out.kept.length = cs.length ∧
      ∃ dropped : ScoredCandidate F → Bool,
        (∀ cs', cs'.Perm cs → (apply extractIds cfg query namespaceHint cs').kept = cs'.filter fun c => !dropped c) ∧
        ∀ c ∈ cs, dropped c = true → ∃ r, c.record = some r ∧
          (∃ o ∈ cs, ∃ r', o.record = some r' ∧ r.createdAt < r'.createdAt ∧
            ∃ name ∈ (extractIds r.content).map (·.1), ∃ id,
              Carries extractIds r' name id ∧ ¬ Carries extractIds r name id) ∧
          ¬ ∀ o ∈ cs, ∀ r', o.record = some r' → r'.createdAt ≤ r.createdAt := by
  obtain ⟨hkept, hdropped⟩ := apply_eq extractIds cfg query namespaceHint cs
  refine ⟨hkept ▸ List.filter_sublist, ?_, stale extractIds cfg cs, fun cs' hperm => ?_, fun c hc hs => ?_⟩
  · rw [hkept, hdropped, ← List.countP_eq_length_filter]
    simpa using (List.length_eq_countP_add_countP (stale extractIds cfg cs) (l := cs)).symm
  · obtain ⟨hkept', -⟩ := apply_eq extractIds cfg query namespaceHint cs'
    rw [hkept']
    exact List.filter_congr fun c _ => by rw [stale_congr fun o => hperm.mem_iff]
  · cases hr : c.record with
    | none => simp [stale, hr] at hs
    | some r =>
      obtain ⟨o, ho, r', hr', hnewer, hid⟩ := stale_witness hr hs
      refine ⟨r, rfl, ⟨o, ho, r', hr', hnewer, hid⟩, fun hnewest => ?_⟩
      exact UInt32.not_lt.mpr (hnewest o ho r' hr') hnewer

end Apply

end Filter

end AggregateStalenessFilter
end Retrieval
end Amind
