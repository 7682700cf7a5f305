/-
# Who wins in an answer

Of the memories that were ranked, those are left out that another one supersedes, wins
a conflict against or was derived from, and those that are old versions of similar
ones. Something should be left, and whatever is left out should be so because of
something that is not, perhaps over others that are left out as well
(`LeavesWinners`).

Old versions never matter for that: of two memories that were not left out before,
one is left out because of the other. The other three can make a `Knot`, such as two
memories of the same second each of which has a conflict edge to the other. Then all
of the knot is left out, because of nothing that is left (`leavesWinners_iff`).
-/
import Amind.Lib.Overruling
import Amind.Retrieval.Recall
import Amind.Retrieval.Slots

namespace Amind
namespace Retrieval

open Amind.Core Amind.Graph Amind.Overruling

section Statement

variable {F : Type} [RecallOps F]

/-! ### What is left out because of what -/

omit [RecallOps F] in
/-- The pairs that the edges of one result make: what is kept, and what is left out. -/
def overrulingsByEdges (g : GraphStore F) (ranked : List (ScoredMemory F)) (m : ScoredMemory F) :
    List (UInt64 × UInt64) :=
  (g.getEdges m.record.memoryId).flatMap fun e =>
    if (ranked.map (·.record.memoryId)).contains e.toId then
      if e.type = .supersedes then [(m.record.memoryId, e.toId)]
      else if e.type = .conflictsWith then
        match ranked.find? fun peer => peer.record.memoryId = e.toId with
        | some peer =>
          if peer.record.createdAt ≤ m.record.createdAt then [(m.record.memoryId, peer.record.memoryId)]
          else [(peer.record.memoryId, m.record.memoryId)]
        | none => []
      else []
    else []

/-- And with its parent. -/
def overrulingsByParent (ranked : List (ScoredMemory F)) (m : ScoredMemory F) : List (UInt64 × UInt64) :=
  if m.record.parentId ≠ 0 ∧ (ranked.map (·.record.memoryId)).contains m.record.parentId then
    [(m.record.memoryId, m.record.parentId)]
  else []

/-- The pairs that edges and parents make. -/
def overrulings (g : GraphStore F) (ranked : List (ScoredMemory F)) : List (UInt64 × UInt64) :=
  ranked.flatMap fun m => overrulingsByEdges g ranked m ++ overrulingsByParent ranked m

/-- Of two similar results, the one that is an old version of the other, after the
other. -/
def oldOf (m m' : ScoredMemory F) : Option (UInt64 × UInt64) :=
  let old := contentHasOldMarker m.record.content
  if old = contentHasOldMarker m'.record.content ∨ m.embedding = [] ∨ m'.embedding = [] ∨
      ¬ 0.70 ≤ similarity m.embedding m'.embedding then none
  else
    let marker := if old then m else m'
    let plain := if old then m' else m
    if plain.record.createdAt ≤ marker.record.createdAt then
      if marker.totalScore + 0.1 < plain.totalScore then none
      else some (marker.record.memoryId, plain.record.memoryId)
    else some (plain.record.memoryId, marker.record.memoryId)

/-- Note the pair of two results, unless the second is left out already. -/
def noteOld (m : ScoredMemory F) (noted : List (UInt64 × UInt64)) (m' : ScoredMemory F) : List (UInt64 × UInt64) :=
  if m'.record.memoryId ∈ overruled noted then noted
  else
    match oldOf m m' with
    | none => noted
    | some pair => pair :: noted

def noteOlds : List (ScoredMemory F) → List (UInt64 × UInt64) → List (UInt64 × UInt64)
  | [], noted => noted
  | m :: ms, noted =>
    if m.record.memoryId ∈ overruled noted then noteOlds ms noted else noteOlds ms (ms.foldl (noteOld m) noted)

/-- All pairs of what is kept and what is left out because of it. -/
def suppressions (g : GraphStore F) (ranked : List (ScoredMemory F)) : List (UInt64 × UInt64) :=
  noteOlds ranked (overrulings g ranked)

/-- Something is answered, and it leads to whatever is not. -/
structure LeavesWinners (g : GraphStore F) (ranked : List (ScoredMemory F)) : Prop where
  nonempty : withoutSuppressed g ranked ≠ []
  led : ∀ m ∈ ranked, m ∉ withoutSuppressed g ranked →
    ∃ r ∈ withoutSuppressed g ranked, Leads (suppressions g ranked) r.record.memoryId m.record.memoryId

/-- Results with the same id have vectors in one place at most. -/
def Apart (ranked : List (ScoredMemory F)) : Prop :=
  ranked.Pairwise fun m m' => m.record.memoryId = m'.record.memoryId → m.embedding = [] ∨ m'.embedding = []

end Statement

/-! ### The pairs are those of the code -/

section Pairs

variable {F : Type} [RecallOps F] {g : GraphStore F} {ranked : List (ScoredMemory F)}

omit [RecallOps F] in
theorem overruled_overrulings : overruled (overrulings g ranked) =
    ranked.flatMap fun m => suppressByEdges g ranked m ++ suppressByParent ranked m := by
  have hedges : ∀ m : ScoredMemory F, (overrulingsByEdges g ranked m).map (·.2) = suppressByEdges g ranked m := by
    intro m
    rw [overrulingsByEdges, suppressByEdges, List.map_flatMap]
    refine List.flatMap_congr fun e _ => ?_
    by_cases hin : (ranked.map (·.record.memoryId)).contains e.toId
    · rw [if_pos hin, if_pos hin]
      cases ranked.find? fun peer => peer.record.memoryId = e.toId with
      | none => split_ifs <;> rfl
      | some peer =>
        dsimp only
        split_ifs <;> rfl
    · rw [if_neg hin, if_neg hin]
      rfl
  have hparent : ∀ m : ScoredMemory F, (overrulingsByParent ranked m).map (·.2) = suppressByParent ranked m := by
    intro m
    rw [overrulingsByParent, suppressByParent]
    split
    · rfl
    · rfl
  rw [overruled, overrulings, List.map_flatMap]
  exact List.flatMap_congr fun m _ => by rw [List.map_append, hedges, hparent]

theorem overruled_noteOld (m m' : ScoredMemory F) (noted : List (UInt64 × UInt64)) :
    overruled (noteOld m noted m') = suppressOld m (overruled noted) m' := by
  rw [noteOld, suppressOld, oldOf]
  dsimp only
  by_cases hin : m'.record.memoryId ∈ overruled noted
  · rw [if_pos hin, if_pos hin]
  · rw [if_neg hin, if_neg hin]
    split_ifs <;> rfl

theorem overruled_noteOlds : ∀ (ms : List (ScoredMemory F)) (noted : List (UInt64 × UInt64)),
    overruled (noteOlds ms noted) = suppressOlds ms (overruled noted)
  | [], _ => rfl
  | m :: ms, noted => by
    have hfold : ∀ (ms : List (ScoredMemory F)) (noted : List (UInt64 × UInt64)),
        overruled (ms.foldl (noteOld m) noted) = ms.foldl (suppressOld m) (overruled noted) := by
      intro ms
      induction ms with
      | nil => exact fun _ => rfl
      | cons m' ms ih => exact fun noted => (ih _).trans (by rw [overruled_noteOld]; rfl)
    rw [noteOlds, suppressOlds]
    by_cases hin : m.record.memoryId ∈ overruled noted
    · rw [if_pos hin, if_pos hin, overruled_noteOlds]
    · rw [if_neg hin, if_neg hin, overruled_noteOlds, hfold]

/-- What is left out is what the pairs overrule. -/
theorem withoutSuppressed_of_many (h : 1 < ranked.length) : withoutSuppressed g ranked =
    ranked.filter fun m => m.record.memoryId ∉ overruled (suppressions g ranked) := by
  rw [withoutSuppressed, if_pos h, suppressions, overruled_noteOlds, overruled_overrulings]

omit [RecallOps F] in
theorem mem_ids_of_mem_overrulings {pair : UInt64 × UInt64} (h : pair ∈ overrulings g ranked) :
    pair.1 ∈ ranked.map (·.record.memoryId) ∧ pair.2 ∈ ranked.map (·.record.memoryId) := by
  obtain ⟨m, hm, hpair⟩ := List.mem_flatMap.mp h
  have hid : m.record.memoryId ∈ ranked.map (·.record.memoryId) := List.mem_map_of_mem hm
  rcases List.mem_append.mp hpair with hpair | hpair
  · obtain ⟨e, -, he⟩ := List.mem_flatMap.mp hpair
    by_cases hin : (ranked.map (·.record.memoryId)).contains e.toId
    · rw [if_pos hin] at he
      have hto : e.toId ∈ ranked.map (·.record.memoryId) := List.contains_iff_mem.mp hin
      cases hfind : ranked.find? fun peer => peer.record.memoryId = e.toId with
      | none =>
        rw [hfind] at he
        split_ifs at he
        · rw [List.mem_singleton.mp he]
          exact ⟨hid, hto⟩
        · cases he
        · cases he
      | some peer =>
        have hpeer : peer.record.memoryId ∈ ranked.map (·.record.memoryId) :=
          List.mem_map_of_mem (List.mem_of_find?_eq_some hfind)
        rw [hfind] at he
        dsimp only at he
        split_ifs at he
        · rw [List.mem_singleton.mp he]
          exact ⟨hid, hto⟩
        · rw [List.mem_singleton.mp he]
          exact ⟨hid, hpeer⟩
        · rw [List.mem_singleton.mp he]
          exact ⟨hpeer, hid⟩
        · cases he
    · rw [if_neg hin] at he
      cases he
  · rw [overrulingsByParent] at hpair
    split at hpair
    · rename_i hparent
      rw [List.mem_singleton.mp hpair]
      exact ⟨hid, List.contains_iff_mem.mp hparent.2⟩
    · cases hpair

end Pairs

/-! ### Old versions -/

section Olds

variable {F : Type} [RecallOps F]

/-- Two results make a pair if both have a vector. -/
theorem oldOf_spec {m m' : ScoredMemory F} {pair : UInt64 × UInt64} (h : oldOf m m' = some pair) :
    m.embedding ≠ [] ∧ m'.embedding ≠ [] ∧
      (pair = (m.record.memoryId, m'.record.memoryId) ∨ pair = (m'.record.memoryId, m.record.memoryId)) := by
  rw [oldOf] at h
  dsimp only at h
  split at h
  · cases h
  · rename_i hc
    obtain ⟨-, hc⟩ := not_or.mp hc
    obtain ⟨hm, hc⟩ := not_or.mp hc
    refine ⟨hm, (not_or.mp hc).1, ?_⟩
    split_ifs at h
    all_goals cases h
    · exact .inl rfl
    · exact .inr rfl
    · exact .inr rfl
    · exact .inl rfl

/-- What the turn of a result notes: each pair is one of it and a later result. -/
theorem exists_foldl_noteOld {m : ScoredMemory F} : ∀ {ms : List (ScoredMemory F)} (noted : List (UInt64 × UInt64)),
    Apart (m :: ms) → ∃ new, ms.foldl (noteOld m) noted = new ++ noted ∧ Round noted m.record.memoryId new ∧
      ∀ pair ∈ new, pair.2 = m.record.memoryId ∨ ∃ m' ∈ ms, m'.embedding ≠ [] ∧ pair.2 = m'.record.memoryId
  | [], noted, _ => ⟨[], rfl, .nil noted _, fun _ h => by cases h⟩
  | m' :: ms, noted, hapart => by
    obtain ⟨hm, hms⟩ := List.pairwise_cons.mp hapart
    obtain ⟨hm', hms⟩ := List.pairwise_cons.mp hms
    have hrest : ∀ noted, ∃ new, ms.foldl (noteOld m) noted = new ++ noted ∧ Round noted m.record.memoryId new ∧
        ∀ pair ∈ new, pair.2 = m.record.memoryId ∨ ∃ m' ∈ ms, m'.embedding ≠ [] ∧ pair.2 = m'.record.memoryId :=
      fun noted => exists_foldl_noteOld noted
        (List.pairwise_cons.mpr ⟨fun m' hm' => hm m' (List.mem_cons_of_mem _ hm'), hms⟩)
    have hlater : ∀ {pair : UInt64 × UInt64}, (pair.2 = m.record.memoryId ∨
        ∃ m' ∈ ms, m'.embedding ≠ [] ∧ pair.2 = m'.record.memoryId) → pair.2 = m.record.memoryId ∨
          ∃ m'' ∈ m' :: ms, m''.embedding ≠ [] ∧ pair.2 = m''.record.memoryId := by
      rintro pair (he | ⟨m'', hmem, h⟩)
      · exact .inl he
      · exact .inr ⟨m'', List.mem_cons_of_mem m' hmem, h⟩
    rw [List.foldl_cons]
    by_cases hin : m'.record.memoryId ∈ overruled noted
    · obtain ⟨new, hnew, hround, hpairs⟩ := hrest noted
      exact ⟨new, by rw [noteOld, if_pos hin, hnew], hround, fun pair hp => hlater (hpairs pair hp)⟩
    · cases hold : oldOf m m' with
      | none =>
        obtain ⟨new, hnew, hround, hpairs⟩ := hrest noted
        exact ⟨new, by rw [noteOld, if_neg hin, hold, hnew], hround, fun pair hp => hlater (hpairs pair hp)⟩
      | some pair =>
        obtain ⟨hvector, hvector', hends⟩ := oldOf_spec hold
        obtain ⟨new, hnew, hround, hpairs⟩ := hrest (pair :: noted)
        have hne : m.record.memoryId ≠ m'.record.memoryId := fun he =>
          (hm m' List.mem_cons_self he).elim hvector hvector'
        -- nothing later in the turn overrules `m'`: only `m` and results of other ids are
        have hkept : m'.record.memoryId ∉ overruled new := by
          intro hmem
          obtain ⟨w, hw⟩ := mem_overruled.mp hmem
          rcases hpairs _ hw with he | ⟨m'', hmem, hvector'', he⟩
          · exact hne he.symm
          · exact (hm' m'' hmem he).elim hvector' hvector''
        have hround' : Round noted m.record.memoryId (new ++ [pair]) := by
          rcases hends with rfl | rfl
          · exact hround.snoc (.inl rfl) (.inr hin) fun he => absurd he.symm hne
          · refine hround.snoc (.inr rfl) (.inl rfl) fun _ hmem => ?_
            rcases mem_overruled_append.mp hmem with hmem | hmem
            · exact hkept hmem
            · rcases List.mem_cons.mp hmem with he | hmem
              · exact hne he.symm
              · exact hin hmem
        refine ⟨new ++ [pair], by rw [noteOld, if_neg hin, hold, hnew, List.append_assoc]; rfl, hround', ?_⟩
        intro r hr
        rcases List.mem_append.mp hr with hr | hr
        · exact hlater (hpairs r hr)
        · rw [List.mem_singleton.mp hr]
          rcases hends with rfl | rfl
          · exact .inr ⟨m', List.mem_cons_self, hvector', rfl⟩
          · exact .inl rfl

/-- Old versions are left out because of results that are kept, or lead to ones that
are. -/
theorem exists_noteOlds : ∀ {ms : List (ScoredMemory F)} (noted : List (UInt64 × UInt64)), Apart ms →
    ∃ new, noteOlds ms noted = new ++ noted ∧ Settles noted new
  | [], noted, _ => ⟨[], rfl, .nil noted⟩
  | m :: ms, noted, hapart => by
    have hrest := (List.pairwise_cons.mp hapart).2
    rw [noteOlds]
    by_cases hin : m.record.memoryId ∈ overruled noted
    · rw [if_pos hin]
      exact exists_noteOlds noted hrest
    · rw [if_neg hin]
      obtain ⟨new, hnew, hround, -⟩ := exists_foldl_noteOld noted hapart
      rw [hnew]
      obtain ⟨new', hnew', hsettles⟩ := exists_noteOlds (new ++ noted) hrest
      exact ⟨new' ++ new, by rw [hnew', List.append_assoc], (hround.settles hin).append hsettles⟩

/-- Whoever makes a pair was ranked. -/
theorem mem_ids_of_mem_noteOlds {ids : List UInt64} : ∀ {ms : List (ScoredMemory F)} {noted : List (UInt64 × UInt64)},
    (∀ m ∈ ms, m.record.memoryId ∈ ids) → (∀ pair ∈ noted, pair.1 ∈ ids ∧ pair.2 ∈ ids) →
      ∀ pair ∈ noteOlds ms noted, pair.1 ∈ ids ∧ pair.2 ∈ ids
  | [], _, _, h => h
  | m :: ms, noted, hids, h => by
    obtain ⟨hm, hms⟩ := List.forall_mem_cons.mp hids
    have hturn : ∀ (ms' : List (ScoredMemory F)) (noted : List (UInt64 × UInt64)),
        (∀ m' ∈ ms', m'.record.memoryId ∈ ids) → (∀ pair ∈ noted, pair.1 ∈ ids ∧ pair.2 ∈ ids) →
          ∀ pair ∈ ms'.foldl (noteOld m) noted, pair.1 ∈ ids ∧ pair.2 ∈ ids := by
      intro ms'
      induction ms' with
      | nil => exact fun _ _ h => h
      | cons m' ms' ih =>
        intro noted hids h
        obtain ⟨hm', hms'⟩ := List.forall_mem_cons.mp hids
        refine ih _ hms' ?_
        rw [noteOld]
        split
        · exact h
        · split
          · exact h
          · rename_i pair hold
            refine List.forall_mem_cons.mpr ⟨?_, h⟩
            rcases (oldOf_spec hold).2.2 with rfl | rfl
            · exact ⟨hm, hm'⟩
            · exact ⟨hm', hm⟩
    rw [noteOlds]
    split
    · exact mem_ids_of_mem_noteOlds hms h
    · exact mem_ids_of_mem_noteOlds hms (hturn ms noted hms h)

end Olds

/-! ### What is ranked is apart -/

section Apart

variable {F : Type} {originals : List (ScoredMemory F)} {s : Selection F}

/-- A place that was used has no vector any more, and what is taken from it again has
none. -/
structure Selection.Emptied (s : Selection F) : Prop where
  places : ∀ {i : ℕ} {m : ScoredMemory F}, s.used i = true → s.candidates[i]? = some m → m.embedding = []
  again : s.selected.Pairwise fun m m' => m.2 = m'.2 → m'.1.embedding = []

theorem Selection.Emptied.start (originals : List (ScoredMemory F)) : Selection.Emptied ⟨originals, []⟩ where
  places := fun h => by cases h
  again := .nil

theorem Selection.Emptied.take (h : s.Emptied) (i : ℕ) : (s.take i).Emptied := by
  cases hm : s.candidates[i]? with
  | none =>
    rw [Selection.take, hm]
    exact h
  | some m =>
    rw [Selection.take_of_getElem? hm]
    refine ⟨fun {j m'} hused hj => ?_, List.pairwise_append.mpr ⟨h.again, List.pairwise_singleton _ _, ?_⟩⟩
    · by_cases hij : i = j
      · subst hij
        rw [List.getElem?_set_self (List.getElem?_eq_some_iff.mp hm).1] at hj
        cases hj
        rfl
      · rw [List.getElem?_set_ne hij] at hj
        have hused' : s.used j = true ∨ j = i := by
          simpa [Selection.used] using hused
        exact h.places (hused'.resolve_right fun he => hij he.symm) hj
    · intro a ha b hb he
      rw [List.mem_singleton.mp hb] at he ⊢
      exact h.places (Selection.used_iff.mpr ⟨a, ha, he⟩) hm

theorem emptied_selectMmr [RecallOps F] {value : Selection F → ScoredMemory F × ℕ → F} :
    ∀ (n : ℕ) {s : Selection F}, s.Emptied → (selectMmr value n s).Emptied
  | 0, _, h => h
  | n + 1, _, h => emptied_selectMmr n (h.take _)

theorem emptied_explore {draw : ℕ → ℕ} (h : s.Emptied) : (explore draw s).Emptied := by
  unfold explore
  split
  · exact h
  · exact h.take _

theorem apart_selected (hids : (originals.map (·.record.memoryId)).Nodup) (h : s.From originals) (he : s.Emptied) :
    Apart (s.selected.map (·.1)) := by
  refine List.pairwise_map.mpr (he.again.imp_of_mem fun {a b} ha hb hempty hname => .inr (hempty ?_))
  have hid : ∀ m ∈ s.selected, (originals.map (·.record.memoryId))[m.2]? = some m.1.record.memoryId := by
    intro m hm
    obtain ⟨c, hc, hmc⟩ := h.taken m hm
    rw [List.getElem?_map, hc, memoryId_of_left hmc]
    rfl
  have hlt := (List.getElem?_eq_some_iff.mp (hid a ha)).1
  exact (List.getElem?_inj hlt hids).mp ((hid a ha).trans ((congrArg some hname).trans (hid b hb).symm))

/-- Whatever is ranked is apart, also after a blind round. -/
theorem apart_rankAndFuse [RecallOps F] (p : EntityPatterns) {reranker : Option (Reranker F)} {draw : ℕ → ℕ}
    {candidates : List (ScoredMemory F)} {topK : ℕ} (hids : (candidates.map (·.record.memoryId)).Nodup) :
    Apart (rankAndFuse p reranker draw candidates topK) := by
  have hids' := nodup_reranked reranker hids
  rw [rankAndFuse]
  rcases Nat.lt_or_ge topK (reranked reranker candidates).length with hmany | hfew
  · rw [fuse_many p hmany]
    have hfrom : (chosen p (reranked reranker candidates) topK).From (reranked reranker candidates) :=
      from_selectMmr _ (from_firstSelected _)
    have hemptied : (chosen p (reranked reranker candidates) topK).Emptied :=
      emptied_selectMmr _ ((Selection.Emptied.start _).take _)
    split
    · exact apart_selected hids' (from_explore hfrom) (emptied_explore hemptied)
    · exact apart_selected hids' hfrom hemptied
  · have hperm : (fuse p draw (reranked reranker candidates) topK).Perm (reranked reranker candidates) :=
      fuse_few_perm p hfew
    have hdistinct := (hperm.map (·.record.memoryId)).nodup_iff.mpr hids'
    exact (List.pairwise_map.mp hdistinct).imp fun hne he => absurd he hne

end Apart

/-! ### What is answered -/

section Answers

variable {F : Type} [RecallOps F] {g : GraphStore F} {ranked : List (ScoredMemory F)}

theorem mem_ids_of_mem_suppressions {pair : UInt64 × UInt64} (h : pair ∈ suppressions g ranked) :
    pair.1 ∈ ranked.map (·.record.memoryId) ∧ pair.2 ∈ ranked.map (·.record.memoryId) := by
  have hids : ∀ m ∈ ranked, m.record.memoryId ∈ ranked.map (·.record.memoryId) := fun m hm => List.mem_map_of_mem hm
  exact mem_ids_of_mem_noteOlds hids (fun _ hp => mem_ids_of_mem_overrulings hp) pair h

/-- Some winner is left if and only if all that is overruled is led. -/
theorem leavesWinners_iff_led (h : 1 < ranked.length) : LeavesWinners g ranked ↔ Led (suppressions g ranked) := by
  have hmem : ∀ {m}, m ∈ withoutSuppressed g ranked ↔
      m ∈ ranked ∧ m.record.memoryId ∉ overruled (suppressions g ranked) := by
    intro m
    rw [withoutSuppressed_of_many h, List.mem_filter, decide_eq_true_eq]
  constructor
  · intro hleaves b hb
    obtain ⟨a, hab⟩ := mem_overruled.mp hb
    obtain ⟨m, hm, rfl⟩ := List.mem_map.mp (mem_ids_of_mem_suppressions hab).2
    obtain ⟨r, hr, hlead⟩ := hleaves.led m hm fun hkept => (hmem.mp hkept).2 hb
    exact ⟨r.record.memoryId, (hmem.mp hr).2, hlead⟩
  · intro hled
    have hreason : ∀ m ∈ ranked, m ∉ withoutSuppressed g ranked →
        ∃ r ∈ withoutSuppressed g ranked, Leads (suppressions g ranked) r.record.memoryId m.record.memoryId := by
      intro m hm hout
      obtain ⟨a, ha, hlead⟩ := hled _ (not_not.mp fun hkept => hout (hmem.mpr ⟨hm, hkept⟩))
      obtain ⟨b, hab⟩ := hlead.exists_head
      obtain ⟨r, hr, rfl⟩ := List.mem_map.mp (mem_ids_of_mem_suppressions hab).1
      exact ⟨r, hmem.mpr ⟨hr, ha⟩, hlead⟩
    refine ⟨fun hnil => ?_, hreason⟩
    have hne : ranked ≠ [] := List.length_pos_iff.mp (Nat.zero_lt_of_lt h)
    obtain ⟨m, hm⟩ := List.exists_mem_of_ne_nil _ hne
    obtain ⟨r, hr, -⟩ := hreason m hm (hnil ▸ List.not_mem_nil)
    rw [hnil] at hr
    cases hr

/-- **Who wins in an answer.** Something is answered and leads to all that is left out,
if and only if the edges and the parents of what was ranked make no knot. -/
theorem leavesWinners_iff (hne : ranked ≠ []) (hapart : Apart ranked) :
    LeavesWinners g ranked ↔ (1 < ranked.length → ∀ group, ¬ Knot (overrulings g ranked) group) := by
  by_cases hmany : 1 < ranked.length
  · obtain ⟨new, hnew, hsettles⟩ := exists_noteOlds (overrulings g ranked) hapart
    have hall : suppressions g ranked = new ++ overrulings g ranked := hnew
    rw [leavesWinners_iff_led hmany, hall, hsettles.led_iff, led_iff_no_knot]
    exact ⟨fun h _ => h, fun h => h hmany⟩
  · have hself : withoutSuppressed g ranked = ranked := if_neg hmany
    refine ⟨fun _ h => absurd h hmany, fun _ => ⟨by rwa [hself], fun m hm hout => ?_⟩⟩
    rw [hself] at hout
    exact absurd hm hout

end Answers

/-! ### Two memories of one second -/

def twins : List (ScoredMemory Fixed) := [scoredNote 1 (1 / 2), scoredNote 2 (1 / 4)]

/-- Each was found to conflict with the other. -/
def eachOther : GraphStore Fixed :=
  (({} : GraphStore Fixed).addEdgeInternal 1 2 .conflictsWith (9 / 10 : ℚ) 10).addEdgeInternal 2 1 .conflictsWith
    (9 / 10 : ℚ) 10

/-- The second was found to conflict with the first. -/
def oneSided : GraphStore Fixed := ({} : GraphStore Fixed).addEdgeInternal 2 1 .conflictsWith (9 / 10 : ℚ) 10

theorem apart_twins : Apart twins := List.pairwise_pair.mpr fun h => absurd h (by decide)

theorem leavesWinners_oneSided : LeavesWinners oneSided twins ↔
    (1 < twins.length → ∀ group, ¬ Knot (overrulings oneSided twins) group) :=
  leavesWinners_iff (by simp [twins]) apart_twins

/-- Each leaves the other out, and nothing is answered. -/
theorem not_leavesWinners_eachOther : twins ≠ [] ∧ Apart twins ∧ withoutSuppressed eachOther twins = [] ∧
    ¬ LeavesWinners eachOther twins := by
  have hnil : withoutSuppressed eachOther twins = [] := List.length_eq_zero_iff.mp (by decide +kernel)
  exact ⟨by simp [twins], List.pairwise_pair.mpr fun h => absurd h (by decide), hnil, fun h => h.nonempty hnil⟩

end Retrieval
end Amind
