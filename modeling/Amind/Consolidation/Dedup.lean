/-
# Who stands for the archived

The worker's loops with any similarity of vectors, in whatever order the sort
leaves memories whose vectors have the same norm, and with the memories that are
archived. `dedup` of `Consolidation/Worker` is the case of the similarity that
the engine passes (`dedup_eq`).

The loops go through the memories as in `Lib/Turns`: a memory leaves out those
that are similar to it and not more important, and its rivals are the more
important ones (`dedupFromBy_spec`).

Every archived memory is linked, over similar ones, to one that is not archived.
But a memory that is kept for another one may be archived itself, and is answered
as archived when a second rival is found, which it is not. `representatives_iff`
says when that happens.

Key definitions:

* `dedupBy` : the worker, with the places of the memories it archives.
* `KeepsRepresentatives` : what is answered as archived is what is archived.
-/
import Mathlib.Data.List.Enum
import Amind.Consolidation.Worker
import Amind.Lib.Turns

namespace Amind
namespace Consolidation

open Amind.Core

section Dedup

variable {F : Type} [FloatOps F] (sim : List F → List F → F) (threshold : F)

/-- The memories with the norms of their vectors, as they stand in the pool. -/
def normed (memories : List (MemoryRecord F)) : List (Entry F) :=
  memories.zipIdx.map fun m => ⟨m.2, m.1, if m.1.embedding = [] then 0 else sqrt (squares m.1.embedding)⟩

/-- The norms are too far apart for the pair to be compared. -/
def Apart (x y : Entry F) : Prop := 0 < x.norm ∧ 0 < y.norm ∧ x.norm / y.norm < threshold

def Similar (x y : Entry F) : Prop := threshold ≤ sim x.memory.embedding y.memory.embedding

def LessImportant (x y : Entry F) : Prop := x.memory.importance < y.memory.importance

instance : DecidableRel (Apart threshold : Entry F → Entry F → Prop) := fun x y =>
  inferInstanceAs (Decidable (0 < x.norm ∧ 0 < y.norm ∧ x.norm / y.norm < threshold))

instance : DecidableRel (Similar sim threshold) := fun x y =>
  inferInstanceAs (Decidable (threshold ≤ sim x.memory.embedding y.memory.embedding))

instance : DecidableRel (LessImportant : Entry F → Entry F → Prop) := fun x y =>
  inferInstanceAs (Decidable (x.memory.importance < y.memory.importance))

/-- Compare a memory with those after it. -/
def pairLoopBy (x : Entry F) : List (Entry F) → Group F → Group F
  | [], g => g
  | y :: ys, g =>
    if g.archived y.place ∨ y.memory.embedding = [] then pairLoopBy x ys g
    else if Apart threshold x y then g
    else if Similar sim threshold x y then
      if LessImportant x y then
        pairLoopBy x ys
          { kept := y.memory
            merges := g.merges ++ [⟨g.kept, y.memory, y.memory⟩]
            archived := Function.update g.archived x.place true }
      else
        pairLoopBy x ys
          { g with
            merges := g.merges ++ [⟨y.memory, x.memory, g.kept⟩]
            archived := Function.update g.archived y.place true }
    else pairLoopBy x ys g

/-- The groups, and the places that are archived in the end. -/
def dedupFromBy (archived : ℕ → Bool) : List (Entry F) → List (DedupResult F) × (ℕ → Bool)
  | [] => ([], archived)
  | x :: xs =>
    if archived x.place ∨ x.memory.embedding = [] then dedupFromBy archived xs
    else
      let g := pairLoopBy sim threshold x xs ⟨x.memory, [], archived⟩
      let rest := dedupFromBy g.archived xs
      if g.merges.isEmpty then rest else (⟨g.kept, g.merges⟩ :: rest.1, rest.2)

/-- An order that sorting by norm may leave. -/
structure NormOrder (memories : List (MemoryRecord F)) where
  toList : List (Entry F)
  perm : toList.Perm (normed memories)
  sorted : toList.Pairwise fun a b => ¬ b.norm < a.norm

/-- The groups of similar memories, and the places of those that are archived. -/
def dedupBy {memories : List (MemoryRecord F)} (order : NormOrder memories) : List (DedupResult F) × (ℕ → Bool) :=
  dedupFromBy sim threshold (fun _ => false) order.toList

/-- The memories afterwards. -/
def dedupedMemories {memories : List (MemoryRecord F)} (order : NormOrder memories) : List (MemoryRecord F) :=
  memories.zipIdx.map fun m =>
    if (dedupBy sim threshold order).2 m.2 then { m.1 with phase := .archived } else m.1

/-! ### The engine's similarity -/

theorem pairLoopBy_cosineSim (x : Entry F) : ∀ (ys : List (Entry F)) (g : Group F),
    pairLoopBy cosineSim threshold x ys g = pairLoop threshold x ys g
  | [], _ => rfl
  | y :: ys, g => by
    unfold pairLoopBy pairLoop
    simp only [pairLoopBy_cosineSim x ys]
    rfl

theorem dedupFromBy_cosineSim : ∀ (l : List (Entry F)) (archived : ℕ → Bool),
    (dedupFromBy cosineSim threshold archived l).1 = dedupFrom threshold archived l
  | [], _ => rfl
  | x :: xs, archived => by
    unfold dedupFromBy dedupFrom
    rw [pairLoopBy_cosineSim]
    split
    · exact dedupFromBy_cosineSim xs archived
    · dsimp only
      rw [← dedupFromBy_cosineSim xs]
      split <;> rfl

/-- The groups are those of the worker, when the sort keeps the order of equal norms. -/
theorem dedup_eq {memories : List (MemoryRecord F)} (order : NormOrder memories)
    (hstable : order.toList = entries memories) :
    (dedupBy cosineSim threshold order).1 = dedup threshold memories := by
  unfold dedupBy
  rw [dedupFromBy_cosineSim, hstable]
  rfl

/-! ### The loops as turns -/

variable {sim threshold}

/-- The entry of a group for a memory that is given. -/
def mergeOf (t : Entry F × Entry F × Entry F) : Merge F := ⟨t.1.memory, t.2.1.memory, t.2.2.memory⟩

/-- What meeting `ms` makes of a group that keeps `k` and has the entries `merges`. -/
structure Follows (x : Entry F) (ms : List (Entry F)) (k : Entry F) (merges : List (Merge F)) (archived : ℕ → Bool)
    (g : Group F) : Prop where
  kept : ∀ out, g.kept = (Turns.group LessImportant x ms (k, out)).1.memory
  merges : g.merges = merges ++ (Turns.gives LessImportant x ms k).map mergeOf
  archived : ∀ p, g.archived p = true ↔ archived p = true ∨ p ∈ (Turns.marks LessImportant (x, ms)).map (·.place)

theorem follows_nil {x k : Entry F} {g : Group F} (hk : g.kept = k.memory) :
    Follows x [] k g.merges g.archived g where
  kept _ := hk
  merges := (List.append_nil _).symm
  archived _ := (or_iff_left List.not_mem_nil).symm

/-- One more is met, and it or the memory itself is archived. -/
theorem Follows.cons {x y k : Entry F} {ms : List (Entry F)} {merges : List (Merge F)} {archived : ℕ → Bool}
    {g : Group F}
    (h : Follows x ms (if LessImportant x y then y else k)
      (merges ++ [mergeOf (if LessImportant x y then (k, y, y) else (y, x, k))])
      (Function.update archived (if LessImportant x y then x else y).place true) g) :
    Follows x (y :: ms) k merges archived g := by
  have hgroup : ∀ out, Turns.group LessImportant x (y :: ms) (k, out) =
      Turns.group LessImportant x ms
        (if LessImportant x y then y else k, out ++ [if LessImportant x y then k else y]) := by
    intro out
    rw [Turns.group]
    split <;> rfl
  have hgives : Turns.gives LessImportant x (y :: ms) k =
      (if LessImportant x y then (k, y, y) else (y, x, k)) ::
        Turns.gives LessImportant x ms (if LessImportant x y then y else k) := by
    rw [Turns.gives]
    split <;> rfl
  refine ⟨fun out => hgroup out ▸ h.kept _, ?_, fun p => ?_⟩
  · rw [h.merges, hgives, List.map_cons, List.append_assoc, List.singleton_append]
  have hmarks : p ∈ (Turns.marks LessImportant (x, y :: ms)).map (·.place) ↔
      p = (if LessImportant x y then x else y).place ∨ p ∈ (Turns.marks LessImportant (x, ms)).map (·.place) := by
    simp only [List.mem_map, Turns.mem_marks_cons, or_and_right, exists_or, exists_eq_left, eq_comm]
  have hupdate : Function.update archived (if LessImportant x y then x else y).place true p = true ↔
      p = (if LessImportant x y then x else y).place ∨ archived p = true := by
    by_cases hp : p = (if LessImportant x y then x else y).place
    · rw [hp, Function.update_self, eq_self, true_iff]
      exact .inl rfl
    · rw [Function.update_of_ne hp, or_iff_right hp]
  rw [h.archived, hmarks, hupdate, or_assoc, or_left_comm]

theorem pairLoopBy_spec {x : Entry F} : ∀ {ys : List (Entry F)} {g : Group F} {k : Entry F},
    ((x :: ys).map (·.place)).Nodup → g.kept = k.memory →
    Follows x (Turns.met (·.place) (Apart threshold) (Similar sim threshold) g.archived x
      (ys.filter fun y => y.memory.embedding ≠ [])) k g.merges g.archived (pairLoopBy sim threshold x ys g)
  | [], g, k, _, hk => follows_nil hk
  | y :: ys, g, k, hnodup, hk => by
    have hx : x.place ∉ ys.map (·.place) := fun hmem => (List.nodup_cons.mp hnodup).1 (List.mem_cons_of_mem _ hmem)
    have hy : y.place ∉ ys.map (·.place) := (List.nodup_cons.mp (List.nodup_cons.mp hnodup).2).1
    have hrest : ((x :: ys).map (·.place)).Nodup :=
      hnodup.sublist (((List.sublist_cons_self y ys).cons_cons x).map _)
    -- the place that is archived next is none of the rest
    have hsame : ∀ {i : ℕ}, i ∉ ys.map (·.place) → ∀ z ∈ ys.filter (fun y => y.memory.embedding ≠ []),
        Function.update g.archived i true z.place = g.archived z.place := by
      intro i hi z hz
      refine Function.update_of_ne (fun heq => hi ?_) _ _
      rw [← heq]
      exact List.mem_map_of_mem (List.mem_filter.mp hz).1
    rw [pairLoopBy]
    by_cases hempty : y.memory.embedding = []
    · rw [if_pos (Or.inr hempty), List.filter_cons_of_neg (by simpa using hempty)]
      exact pairLoopBy_spec hrest hk
    rw [List.filter_cons_of_pos (by simpa using hempty), Turns.met_cons]
    by_cases hgone : g.archived y.place = true
    · rw [if_pos (Or.inl hgone), if_pos hgone]
      exact pairLoopBy_spec hrest hk
    rw [if_neg (not_or.mpr ⟨hgone, hempty⟩), if_neg hgone]
    by_cases hapart : Apart threshold x y
    · rw [if_pos hapart, if_pos hapart]
      exact follows_nil hk
    rw [if_neg hapart, if_neg hapart]
    by_cases hsim : Similar sim threshold x y
    · rw [if_pos hsim, if_pos hsim]
      refine Follows.cons ?_
      by_cases hless : LessImportant x y
      · rw [if_pos hless, if_pos hless, if_pos hless, if_pos hless, ← Turns.met_congr (hsame hx), mergeOf, ← hk]
        exact pairLoopBy_spec (g := ⟨y.memory, _, Function.update g.archived x.place true⟩) hrest rfl
      · rw [if_neg hless, if_neg hless, if_neg hless, if_neg hless, ← Turns.met_congr (hsame hy), mergeOf, ← hk]
        exact pairLoopBy_spec (g := ⟨g.kept, _, Function.update g.archived y.place true⟩) hrest hk
    · rw [if_neg hsim, if_neg hsim]
      exact pairLoopBy_spec hrest hk

variable (sim threshold) in
/-- The turns of the memories that have a vector. -/
def turnsOf (gone : ℕ → Bool) (l : List (Entry F)) : List (Entry F × List (Entry F)) :=
  Turns.turns (·.place) (Apart threshold) (Similar sim threshold) LessImportant gone
    (l.filter fun y => y.memory.embedding ≠ [])

variable (sim threshold) in
/-- The groups are those of the turns in which something is met, and what is archived is marked in a turn. -/
theorem dedupFromBy_spec : ∀ (l : List (Entry F)) (archived gone : ℕ → Bool), (l.map (·.place)).Nodup →
    (∀ y ∈ l, gone y.place = archived y.place) →
    ((dedupFromBy sim threshold archived l).1.map fun g => (g.kept, g.merges)) =
        ((turnsOf sim threshold gone l).filter fun t => !(Turns.given LessImportant t).isEmpty).map
          (fun t => ((Turns.kept LessImportant t).memory, (Turns.gives LessImportant t.1 t.2 t.1).map mergeOf)) ∧
      ∀ p, (dedupFromBy sim threshold archived l).2 p = true ↔ archived p = true ∨
        p ∈ ((turnsOf sim threshold gone l).flatMap (Turns.marks LessImportant)).map (·.place)
  | [], _, _, _, _ => ⟨rfl, fun _ => (or_iff_left List.not_mem_nil).symm⟩
  | x :: xs, archived, gone, hnodup, hsame => by
    obtain ⟨hx, hnodup'⟩ := List.nodup_cons.mp hnodup
    have hrest : ∀ y ∈ xs, gone y.place = archived y.place := fun y hy => hsame y (List.mem_cons_of_mem x hy)
    have hxsame := hsame x List.mem_cons_self
    unfold turnsOf
    rw [dedupFromBy]
    by_cases hempty : x.memory.embedding = []
    · rw [if_pos (Or.inr hempty), List.filter_cons_of_neg (by simpa using hempty)]
      exact dedupFromBy_spec xs archived gone hnodup' hrest
    rw [List.filter_cons_of_pos (by simpa using hempty), Turns.turns]
    by_cases hgone : archived x.place = true
    · rw [if_pos (Or.inl hgone), if_pos (hxsame.trans hgone)]
      exact dedupFromBy_spec xs archived gone hnodup' hrest
    rw [if_neg (not_or.mpr ⟨hgone, hempty⟩), if_neg (hxsame.trans_ne hgone)]
    have hmet : Turns.met (·.place) (Apart threshold) (Similar sim threshold) gone x
          (xs.filter fun y => y.memory.embedding ≠ []) =
        Turns.met (·.place) (Apart threshold) (Similar sim threshold) archived x
          (xs.filter fun y => y.memory.embedding ≠ []) :=
      Turns.met_congr (fun y hy => hrest y (List.mem_filter.mp hy).1) x
    have hfollows : Follows x (Turns.met (·.place) (Apart threshold) (Similar sim threshold) gone x
        (xs.filter fun y => y.memory.embedding ≠ [])) x [] archived
        (pairLoopBy sim threshold x xs ⟨x.memory, [], archived⟩) := by
      rw [hmet]
      exact pairLoopBy_spec (g := ⟨x.memory, [], archived⟩) hnodup rfl
    generalize Turns.met (·.place) (Apart threshold) (Similar sim threshold) gone x
      (xs.filter fun y => y.memory.embedding ≠ []) = ms at hfollows
    generalize pairLoopBy sim threshold x xs ⟨x.memory, [], archived⟩ = g at hfollows
    -- for the rest the same are gone
    have hleave : ∀ y ∈ xs, Turns.leave (·.place) LessImportant gone x ms y.place = g.archived y.place := by
      intro y hy
      have hne : y.place ≠ x.place := fun heq => hx (List.mem_map.mpr ⟨y, hy, heq⟩)
      rw [Bool.eq_iff_iff, hfollows.archived]
      unfold Turns.leave
      rw [Bool.or_eq_true, hrest y hy, decide_eq_true_iff]
      refine or_congr_right ?_
      simp only [List.mem_map, Turns.mem_marks]
      constructor
      · rintro ⟨z, hz, heq⟩
        exact ⟨z, .inl hz, heq⟩
      · rintro ⟨z, hz | ⟨rfl, -⟩, heq⟩
        · exact ⟨z, hz, heq⟩
        · exact absurd heq.symm hne
    obtain ⟨hgroups, harch⟩ := dedupFromBy_spec xs g.archived _ hnodup' hleave
    have hempty' : g.merges.isEmpty = (Turns.given LessImportant (x, ms)).isEmpty := by
      rw [hfollows.merges, List.nil_append, Turns.given_eq, List.isEmpty_map, List.isEmpty_map]
    dsimp only
    refine ⟨?_, fun p => ?_⟩
    · rw [List.filter_cons, hempty']
      by_cases hnone : (Turns.given LessImportant (x, ms)).isEmpty = true
      · rw [if_pos hnone, hnone]
        exact hgroups
      · rw [if_neg hnone, if_pos (by simpa using hnone), List.map_cons, List.map_cons, hgroups, hfollows.kept [],
          hfollows.merges]
        rfl
    · rw [List.flatMap_cons, List.map_append, List.mem_append, ← or_assoc, ← hfollows.archived]
      split
      · exact harch p
      · exact harch p

/-! ### When the answers are right -/

variable (sim threshold) in
/-- The memories at two places are similar. -/
def SimilarAt (memories : List (MemoryRecord F)) (i j : ℕ) : Prop :=
  ∃ a b, memories[i]? = some a ∧ memories[j]? = some b ∧ threshold ≤ sim a.embedding b.embedding

variable (sim threshold) in
/-- What is answered as archived is what is archived, once, nothing kept is answered
as archived, and for everything archived something that is not stands, over similar
memories. -/
structure KeepsRepresentatives (memories : List (MemoryRecord F)) (result : List (DedupResult F) × (ℕ → Bool)) :
    Prop where
  listed : ∀ id, id ∈ result.1.flatMap (·.archivedIds) ↔
    ∃ i m, memories[i]? = some m ∧ result.2 i = true ∧ m.memoryId = id
  once : (result.1.flatMap (·.archivedIds)).Nodup
  kept : ∀ g ∈ result.1, g.kept.memoryId ∉ result.1.flatMap (·.archivedIds)
  linked : ∀ i, result.2 i = true → ∃ j m, memories[j]? = some m ∧ result.2 j = false ∧
    Relation.ReflTransGen (SimilarAt sim threshold memories) i j

theorem mem_normed {memories : List (MemoryRecord F)} {e : Entry F} (h : e ∈ normed memories) :
    memories[e.place]? = some e.memory := by
  obtain ⟨m, hm, rfl⟩ := List.mem_map.mp h
  exact List.mk_mem_zipIdx_iff_getElem?.mp hm

theorem exists_normed {memories : List (MemoryRecord F)} {i : ℕ} {m : MemoryRecord F} (h : memories[i]? = some m) :
    ∃ e ∈ normed memories, e.place = i ∧ e.memory = m :=
  ⟨_, List.mem_map_of_mem (List.mk_mem_zipIdx_iff_getElem?.mpr h), rfl, rfl⟩

theorem places_normed (memories : List (MemoryRecord F)) :
    (normed memories).map (·.place) = List.range memories.length := by
  unfold normed
  rw [List.map_map]
  exact (List.zipIdx_map_snd 0 memories).trans List.range_eq_range'.symm

theorem ids_normed (memories : List (MemoryRecord F)) :
    (normed memories).map (·.memory.memoryId) = memories.map (·.memoryId) := by
  have hfst : memories.zipIdx.map Prod.fst = memories := List.zipIdx_map_fst 0 memories
  have hids := congrArg (List.map fun m : MemoryRecord F => m.memoryId) hfst
  rw [List.map_map] at hids
  unfold normed
  rw [List.map_map]
  exact hids

section Order

variable {memories : List (MemoryRecord F)} (order : NormOrder memories)

theorem NormOrder.places : (order.toList.map (·.place)).Nodup := by
  rw [(order.perm.map _).nodup_iff, places_normed]
  exact List.nodup_range

theorem NormOrder.places_filter : ((order.toList.filter fun y => y.memory.embedding ≠ []).map (·.place)).Nodup :=
  order.places.sublist (List.filter_sublist.map _)

theorem NormOrder.id_inj (hids : (memories.map (·.memoryId)).Nodup) {a b : Entry F} (ha : a ∈ order.toList)
    (hb : b ∈ order.toList) (h : a.memory.memoryId = b.memory.memoryId) : a = b := by
  have hnodup : (order.toList.map (·.memory.memoryId)).Nodup := by
    rw [(order.perm.map _).nodup_iff, ids_normed]
    exact hids
  exact List.inj_on_of_nodup_map hnodup ha hb h

/-- The members of the turns are in the pool. -/
theorem NormOrder.mem {t : Entry F × List (Entry F)} (ht : t ∈ turnsOf sim threshold (fun _ => false) order.toList) :
    ∀ e ∈ t.1 :: t.2, e ∈ order.toList := fun e he => (List.mem_filter.mp (Turns.group_mem ht e he)).1

theorem NormOrder.getElem? {e : Entry F} (he : e ∈ order.toList) : memories[e.place]? = some e.memory :=
  mem_normed (order.perm.subset he)

variable (sim threshold) in
theorem NormOrder.given_mem : ∀ e ∈ (turnsOf sim threshold (fun _ => false) order.toList).flatMap
    (Turns.given LessImportant), e ∈ order.toList := by
  intro e he
  obtain ⟨t, ht, he⟩ := List.mem_flatMap.mp he
  exact order.mem ht e (Turns.mem_of_mem_given he)

variable (sim threshold) in
theorem NormOrder.marks_mem : ∀ e ∈ (turnsOf sim threshold (fun _ => false) order.toList).flatMap
    (Turns.marks LessImportant), e ∈ order.toList := by
  intro e he
  obtain ⟨t, ht, he⟩ := List.mem_flatMap.mp he
  exact order.mem ht e (Turns.mem_of_mem_marks he)

/-- A memory is known by its id. -/
theorem NormOrder.mem_ids (hids : (memories.map (·.memoryId)).Nodup) {l : List (Entry F)} {e : Entry F}
    (hl : ∀ a ∈ l, a ∈ order.toList) (he : e ∈ order.toList) :
    e.memory.memoryId ∈ l.map (·.memory.memoryId) ↔ e ∈ l := by
  refine ⟨fun hmem => ?_, fun hmem => List.mem_map_of_mem hmem⟩
  obtain ⟨a, ha, heq⟩ := List.mem_map.mp hmem
  exact order.id_inj hids (hl a ha) he heq ▸ ha

variable (sim threshold) in
theorem archived_iff {i : ℕ} : (dedupBy sim threshold order).2 i = true ↔
    ∃ e ∈ (turnsOf sim threshold (fun _ => false) order.toList).flatMap (Turns.marks LessImportant), e.place = i := by
  have harch := (dedupFromBy_spec sim threshold order.toList (fun _ => false) (fun _ => false)
    order.places fun _ _ => rfl).2 i
  rw [or_iff_right Bool.false_ne_true, List.mem_map] at harch
  exact harch

variable (sim threshold) in
/-- The ids of what is archived. -/
theorem markedIds_iff (id : UInt64) :
    (∃ i m, memories[i]? = some m ∧ (dedupBy sim threshold order).2 i = true ∧ m.memoryId = id) ↔
      id ∈ ((turnsOf sim threshold (fun _ => false) order.toList).flatMap (Turns.marks LessImportant)).map
        (·.memory.memoryId) := by
  rw [List.mem_map]
  constructor
  · rintro ⟨i, m, hm, hi, rfl⟩
    obtain ⟨e, he, rfl⟩ := (archived_iff sim threshold order).mp hi
    rw [order.getElem? (order.marks_mem sim threshold e he)] at hm
    exact ⟨e, he, congrArg MemoryRecord.memoryId (Option.some.inj hm)⟩
  · rintro ⟨e, he, rfl⟩
    exact ⟨e.place, e.memory, order.getElem? (order.marks_mem sim threshold e he),
      (archived_iff sim threshold order).mpr ⟨e, he, rfl⟩, rfl⟩

variable (sim threshold) in
/-- The entries of the groups are those of the turns. -/
theorem merges_eq : (dedupBy sim threshold order).1.flatMap (·.merges) =
    (turnsOf sim threshold (fun _ => false) order.toList).flatMap fun t =>
      (Turns.gives LessImportant t.1 t.2 t.1).map mergeOf := by
  have hgroups := (dedupFromBy_spec sim threshold order.toList (fun _ => false) (fun _ => false)
    order.places fun _ _ => rfl).1
  have hmerges := congrArg (List.flatMap Prod.snd) hgroups
  rw [List.flatMap_map, List.flatMap_map] at hmerges
  refine Eq.trans hmerges ?_
  generalize turnsOf sim threshold (fun _ => false) order.toList = T
  induction T with
  | nil => rfl
  | cons t T ih =>
    rw [List.flatMap_cons, ← ih, List.filter_cons]
    split
    · rfl
    · rename_i hnone
      have hnil : Turns.given LessImportant t = [] := by simpa using hnone
      rw [Turns.given_eq] at hnil
      rw [List.map_eq_nil_iff.mp hnil]
      rfl

variable (sim threshold) in
/-- The ids that are answered. -/
theorem archivedIds_eq : (dedupBy sim threshold order).1.flatMap (·.archivedIds) =
    ((turnsOf sim threshold (fun _ => false) order.toList).flatMap (Turns.given LessImportant)).map
      (·.memory.memoryId) := by
  have hids : (dedupBy sim threshold order).1.flatMap (·.archivedIds) =
      ((dedupBy sim threshold order).1.flatMap (·.merges)).map (·.victim.memoryId) := List.map_flatMap.symm
  rw [hids, merges_eq, List.map_flatMap, List.map_flatMap]
  refine congrArg (List.flatMap · _) (funext fun t => ?_)
  rw [Turns.given_eq, List.map_map, List.map_map]
  rfl

variable (sim threshold) in
/-- What is kept in the groups. -/
theorem kept_iff {m : MemoryRecord F} : (∃ g ∈ (dedupBy sim threshold order).1, g.kept = m) ↔
    ∃ t ∈ turnsOf sim threshold (fun _ => false) order.toList, Turns.given LessImportant t ≠ [] ∧
      (Turns.kept LessImportant t).memory = m := by
  have hgroups := (dedupFromBy_spec sim threshold order.toList (fun _ => false) (fun _ => false)
    order.places fun _ _ => rfl).1
  have hkepts := congrArg (List.map Prod.fst) hgroups
  rw [List.map_map, List.map_map] at hkepts
  have hmem := (List.mem_map (b := m)).symm.trans ((iff_of_eq (congrArg (m ∈ ·) hkepts)).trans List.mem_map)
  refine hmem.trans (exists_congr fun t => ?_)
  rw [List.mem_filter, and_assoc]
  simp

end Order

variable (sim threshold) in
/-- For everything archived something that is not stands. -/
theorem archived_linked {memories : List (MemoryRecord F)} (hsymm : ∀ a b, sim a b = sim b a)
    (order : NormOrder memories) (i : ℕ) (hi : (dedupBy sim threshold order).2 i = true) :
    ∃ j m, memories[j]? = some m ∧ (dedupBy sim threshold order).2 j = false ∧
      Relation.ReflTransGen (SimilarAt sim threshold memories) i j := by
  obtain ⟨e, he, rfl⟩ := (archived_iff sim threshold order).mp hi
  have hR : ∀ t ∈ turnsOf sim threshold (fun _ => false) order.toList, ∀ y ∈ t.2,
      SimilarAt sim threshold memories t.1.place y.place ∧ SimilarAt sim threshold memories y.place t.1.place := by
    intro t ht y hy
    have hx := order.getElem? (order.mem ht t.1 List.mem_cons_self)
    have hy' := order.getElem? (order.mem ht y (List.mem_cons_of_mem _ hy))
    have hsim : threshold ≤ sim t.1.memory.embedding y.memory.embedding := ((Turns.mem_turn ht).2 y hy).2
    exact ⟨⟨_, _, hx, hy', hsim⟩, ⟨_, _, hy', hx, hsymm _ _ ▸ hsim⟩⟩
  have hpasses : Turns.Passes LessImportant (turnsOf sim threshold (fun _ => false) order.toList) :=
    Turns.passes _ _ _ _ order.places_filter
  obtain ⟨b, hb, ⟨t, ht, hbt⟩, hlead⟩ := Turns.marked_leads
    (R := fun a b : Entry F => SimilarAt sim threshold memories a.place b.place) hpasses hR e he
  refine ⟨b.place, b.memory, order.getElem? (order.mem ht b hbt), Bool.eq_false_iff.mpr fun hmark => ?_,
    hlead.lift Entry.place fun _ _ h => h⟩
  obtain ⟨c, hc, heq⟩ := (archived_iff sim threshold order).mp hmark
  obtain ⟨t', ht', hct⟩ := List.mem_flatMap.mp hc
  have hcin := order.mem ht' c (Turns.mem_of_mem_marks hct)
  have hcb := List.inj_on_of_nodup_map order.places hcin (order.mem ht b hbt) heq
  exact hb (hcb ▸ hc)

variable (sim threshold) in
/-- **What is answered is right if and only if the turns are steady**: no memory has
two rivals in its turn, and its rival is not left out and has none in its own. -/
theorem representatives_iff {memories : List (MemoryRecord F)} (hids : (memories.map (·.memoryId)).Nodup)
    (hsymm : ∀ a b, sim a b = sim b a) (order : NormOrder memories) :
    KeepsRepresentatives sim threshold memories (dedupBy sim threshold order) ↔
      Turns.Steady LessImportant (turnsOf sim threshold (fun _ => false) order.toList) := by
  have hsteady := Turns.steady_iff (T := turnsOf sim threshold (fun _ => false) order.toList)
    (Turns.orderly order.places_filter)
  have hin : ∀ t ∈ turnsOf sim threshold (fun _ => false) order.toList, ∀ e ∈ t.1 :: t.2, e ∈ order.toList :=
    fun t ht => order.mem ht
  have hgivenin := order.given_mem sim threshold
  have hmarksin := order.marks_mem sim threshold
  have hmarkids := markedIds_iff sim threshold order
  have hkept := fun m => kept_iff (m := m) sim threshold order
  have hgiven := archivedIds_eq sim threshold order
  have hlinked := archived_linked sim threshold hsymm order
  generalize dedupBy sim threshold order = r at *
  generalize turnsOf sim threshold (fun _ => false) order.toList = T at *
  rw [← hsteady]
  constructor
  · intro h
    have honce := h.once
    have hlisted := h.listed
    have hfree := h.kept
    rw [hgiven] at honce hlisted hfree
    refine ⟨List.Nodup.of_map _ honce, fun a => ?_, fun t ht hne hmem => ?_⟩
    · have hsame : ∀ id, id ∈ (T.flatMap (Turns.given LessImportant)).map (·.memory.memoryId) ↔
          id ∈ (T.flatMap (Turns.marks LessImportant)).map (·.memory.memoryId) := fun id =>
        (hlisted id).trans (hmarkids id)
      constructor
      · intro ha
        exact (order.mem_ids hids hmarksin (hgivenin a ha)).mp ((hsame _).mp (List.mem_map_of_mem ha))
      · intro ha
        exact (order.mem_ids hids hgivenin (hmarksin a ha)).mp ((hsame _).mpr (List.mem_map_of_mem ha))
    · obtain ⟨g, hg, heq⟩ := (hkept _).mpr ⟨t, ht, hne, rfl⟩
      refine hfree g hg ?_
      rw [heq]
      exact List.mem_map_of_mem hmem
  · rintro ⟨honce, hsame, hfree⟩
    refine ⟨fun id => ?_, ?_, fun g hg => ?_, fun i hi => ?_⟩
    · rw [hgiven, hmarkids, List.mem_map, List.mem_map]
      exact exists_congr fun a => and_congr_left fun _ => hsame a
    · rw [hgiven]
      exact honce.map_on fun a ha b hb heq => order.id_inj hids (hgivenin a ha) (hgivenin b hb) heq
    · obtain ⟨t, ht, hne, heq⟩ := (hkept _).mp ⟨g, hg, rfl⟩
      rw [hgiven, ← heq, order.mem_ids hids hgivenin (hin t ht _ (Turns.kept_mem LessImportant t))]
      exact hfree t ht hne
    · exact hlinked i hi

end Dedup

/-- Memories with ids from 1 on and the importances given, all of one vector. -/
def alikeMemories (importances : List ℚ) : List (MemoryRecord ℚ) :=
  importances.zipIdx.map fun m =>
    { MemoryRecord.zero with memoryId := UInt64.ofNat (m.2 + 1), embedding := [1], importance := m.1 }

/-- The more important memory comes first, and is kept. -/
theorem representatives_two : KeepsRepresentatives (fun _ _ => 1) 1 (alikeMemories [2, 1])
    (dedupBy (fun _ _ => 1) 1 ⟨entries (alikeMemories [2, 1]), List.perm_insertionSort _ _, by decide +kernel⟩) := by
  refine (representatives_iff _ 1 (by decide) (fun _ _ => rfl) _).mpr fun t ht y hy => ?_
  have hnone : ∀ t ∈ turnsOf (fun _ _ => (1 : ℚ)) 1 (fun _ => false) (entries (alikeMemories [2, 1])),
      (Turns.rivals LessImportant t.1 t.2).length = 0 := by decide +kernel
  rw [List.length_eq_zero_iff.mp (hnone t ht)] at hy
  cases hy

/-- Each memory is more important than the one before. The first is found similar to
both others, and then the second to the third: id 2 is answered twice. -/
theorem representatives_rivals :
    let order : NormOrder (alikeMemories [1, 2, 3]) :=
      ⟨entries (alikeMemories [1, 2, 3]), List.perm_insertionSort _ _, by decide +kernel⟩
    let result := dedupBy (fun _ _ => (1 : ℚ)) 1 order
    ((alikeMemories [1, 2, 3]).map (·.memoryId)).Nodup ∧ result.1.map (·.archivedIds) = [[1, 2], [2]] ∧
      ¬ KeepsRepresentatives (fun _ _ => 1) 1 (alikeMemories [1, 2, 3]) result := by
  refine ⟨by decide, by decide +kernel, fun h => ?_⟩
  exact absurd h.once (by decide +kernel)

end Consolidation
end Amind
