/-
# Who is answered

A recall of an agent for a user answers memories of the agent that are alive, and
private ones of the user only, each of them once (`Isolated`). The candidates are
such: the index answers an id once, a record lies under its own id, and the others
are passed over. What is filtered out later leaves this so, and a reranker changes
scores only.

The selection may not. A blind round (`Blind`) takes what stayed behind of the first
candidate: the same id once more, of no agent. If no round of the selection is blind,
who is answered is as it should be, in any store that was reached and with any graph
(`recall_isolated`).
-/
import Amind.Lib.Run
import Amind.Retrieval.Noninterference
import Amind.Retrieval.Slots
import Amind.Vector.Distinct

namespace Amind
namespace Retrieval

open Amind.Core Amind.Memory Amind.Graph Amind.Vector Amind.Vector.HNSWIndex

section Statement

variable {F : Type} [RecallOps F]

/-- The memories near to a vector, with their similarity. -/
def searchSimilar (casts : SizeCasts F) (order : Shuffle) (index : HNSWIndex F) (v : List F) (k : ℕ)
    (filter : Option (UInt64 → Bool)) : Option (List (UInt64 × F)) :=
  (index.searchWithFilter casts order v k filter).map fun rs => rs.map fun r => (r.id, 1 - r.distance)

/-- What the search finds. A user who is known is not shown what is known to be a
private memory of someone else. -/
def semanticHits (casts : SizeCasts F) (order : Shuffle) (x : Opened F) (q : RecallQuery) (v : List F) :
    Option (List (UInt64 × F)) :=
  searchSimilar casts order x.index v (q.topK * 10 % 2 ^ 64)
    (if q.named then some fun id => peekScopeMatch x.store id q.userId else none)

/-- A recall that searches the index of the store. `none` is an exception. -/
def Pipeline.recallOpened (p : Pipeline F) (casts : SizeCasts F) (order : Shuffle) (x : Opened F) (g : GraphStore F)
    (q : RecallQuery) : Except Text (Option (List (ScoredMemory F))) :=
  (p.embed q.searchQuery).map fun v => (semanticHits casts order x q v).map (recallHits p ⟨x.store, g, []⟩ q)

/-- The candidates of a recall with the scores they are ranked by. -/
def rankedOf (p : Pipeline F) (s : MemoryStore F) (g : GraphStore F) (q : RecallQuery) (hits : List (UInt64 × F)) :
    List (ScoredMemory F) :=
  reranked p.reranker (current (gather p q g s hits).store g (gather p q g s hits).candidates)

/-- No round of the selection is blind. -/
def Pipeline.NeverBlind (p : Pipeline F) (casts : SizeCasts F) (order : Shuffle) (x : Opened F) (g : GraphStore F)
    (q : RecallQuery) : Prop :=
  ∀ v hits, p.embed q.searchQuery = .ok v → semanticHits casts order x q v = some hits →
    Sees p.entities (rankedOf p x.store g q hits) q.topK

omit [RecallOps F] in
/-- The answer has memories of the agent that are alive, of other users none that are
private, and each of them once. -/
structure Isolated (q : RecallQuery) (answered : List (ScoredMemory F)) : Prop where
  alive : ∀ m ∈ answered, m.record.isAlive = true
  agent : ∀ m ∈ answered, m.record.agentId = q.agentId
  scope : ∀ m ∈ answered, m.record.scope ≠ .private ∨ m.record.userId = q.userId
  distinct : (answered.map (·.record.memoryId)).Nodup

end Statement

/-! ### The candidates -/

section Gathering

variable {F : Type} [RecallOps F] {p : Pipeline F} {q : RecallQuery} {g : GraphStore F} {s₀ : MemoryStore F}
  {c : Gathered F} {seen : List UInt64}

/-- The candidates so far are admitted, each once, and of the hits so far. -/
structure Gathers (q : RecallQuery) (s₀ : MemoryStore F) (seen : List UInt64) (c : Gathered F) : Prop where
  reads : Reads s₀ c.store
  admitted : ∀ m ∈ c.candidates, admits q m.record = true
  hits : ∀ m ∈ c.candidates, m.record.memoryId ∈ seen
  once : (c.candidates.map (·.record.memoryId)).Nodup

theorem Gathers.gatherOne (h : Gathers q s₀ seen c) (hown : Own s₀) {hit : UInt64 × F} (hnew : hit.1 ∉ seen) :
    Gathers q s₀ (hit.1 :: seen) (Retrieval.gatherOne p q g c hit) := by
  have hseen : ∀ m ∈ c.candidates, m.record.memoryId ∈ hit.1 :: seen :=
    fun m hm => List.mem_cons_of_mem hit.1 (h.hits m hm)
  by_cases hadmits : ∃ r, c.store.load hit.1 = some r ∧ admits q r = true
  · obtain ⟨r, hr, ha⟩ := hadmits
    obtain ⟨r₀, hr₀, hv⟩ := h.reads.original hr
    have hname : r.memoryId = hit.1 :=
      (congrArg (fun r => r.memoryId) hv.symm).trans (hown.load hr₀)
    have hread : (MemoryStore.tryPromote c.store.config (MemoryStore.touch r (q.readAt hit.1))).memoryId = hit.1 :=
      (congrArg (fun r => r.memoryId)
        (MemoryStore.version_tryPromote .whole c.store.config (MemoryStore.touch r (q.readAt hit.1)))).trans hname
    rw [gatherOne_of_admits hr ha]
    refine ⟨h.reads.get _ _, fun m hm => ?_, fun m hm => ?_, ?_⟩
    · rcases List.mem_append.mp hm with hm | hm
      · exact h.admitted m hm
      · rw [List.mem_singleton.mp hm]
        exact (admits_touched c.store.config (q.readAt hit.1)).trans ha
    · rcases List.mem_append.mp hm with hm | hm
      · exact hseen m hm
      · rw [List.mem_singleton.mp hm]
        exact List.mem_cons.mpr (.inl hread)
    · rw [List.map_append]
      refine List.nodup_append.mpr ⟨h.once, List.nodup_singleton _, fun id hid id' hid' he => hnew ?_⟩
      obtain ⟨m, hm, rfl⟩ := List.mem_map.mp hid
      have hhit : m.record.memoryId = hit.1 := he.trans ((List.mem_singleton.mp hid').trans hread)
      exact hhit ▸ h.hits m hm
  · rw [gatherOne_of_not_admits fun r hr => Bool.eq_false_iff.mpr fun ha => hadmits ⟨r, hr, ha⟩]
    exact ⟨h.reads.get _ _, h.admitted, hseen, h.once⟩

theorem gathers_foldl (hown : Own s₀) : ∀ {hits : List (UInt64 × F)} {seen : List UInt64} {c : Gathered F},
    Gathers q s₀ seen c → (hits.map (·.1)).Nodup → (∀ hit ∈ hits, hit.1 ∉ seen) →
      ∃ seen', Gathers q s₀ seen' (hits.foldl (Retrieval.gatherOne p q g) c)
  | [], _, _, h, _, _ => ⟨_, h⟩
  | hit :: hits, seen, c, h, hnodup, hnew => by
    obtain ⟨hhit, hhits⟩ := List.nodup_cons.mp hnodup
    rw [List.foldl_cons]
    refine gathers_foldl hown (h.gatherOne hown (hnew hit List.mem_cons_self)) hhits fun hit' hmem hid => ?_
    rcases List.mem_cons.mp hid with he | hid
    · have hmem' : hit'.1 ∈ hits.map (·.1) := List.mem_map_of_mem hmem
      rw [he] at hmem'
      exact hhit hmem'
    · exact hnew hit' (List.mem_cons_of_mem hit hmem) hid

/-- The candidates of different hits are admitted, each once. -/
theorem gather_candidates (hown : Own s₀) {hits : List (UInt64 × F)} (hnodup : (hits.map (·.1)).Nodup) :
    (∀ m ∈ (gather p q g s₀ hits).candidates, admits q m.record = true) ∧
      ((gather p q g s₀ hits).candidates.map (·.record.memoryId)).Nodup := by
  have hstart : Gathers q s₀ [] ⟨s₀, [], []⟩ :=
    ⟨.refl s₀, fun _ h => (by cases h), fun _ h => (by cases h), List.nodup_nil⟩
  obtain ⟨seen, h⟩ := gathers_foldl (p := p) (g := g) hown hstart hnodup fun _ _ => List.not_mem_nil
  exact ⟨h.admitted, h.once⟩

theorem current_sublist (s : MemoryStore F) (g : GraphStore F) (ms : List (ScoredMemory F)) :
    (current s g ms).Sublist ms :=
  List.filter_sublist.trans (List.filter_sublist.trans List.filter_sublist)

/-- What the search of the index finds is found once. -/
theorem nodup_semanticHits {casts : SizeCasts F} {order : Shuffle} {x : Opened F} {v : List F}
    {hits : List (UInt64 × F)} (h : semanticHits casts order x q v = some hits) : (hits.map (·.1)).Nodup := by
  obtain ⟨rs, hrs, rfl⟩ := Option.map_eq_some_iff.mp h
  rw [List.map_map]
  exact nodup_searchWithFilter hrs

end Gathering

/-! ### The answer -/

section Answering

variable {F : Type} [RecallOps F] {q : RecallQuery} {ms ms' : List (ScoredMemory F)}

omit [RecallOps F] in
theorem Isolated.sublist (h : Isolated q ms) (hsub : ms'.Sublist ms) : Isolated q ms' where
  alive := fun m hm => h.alive m (hsub.subset hm)
  agent := fun m hm => h.agent m (hsub.subset hm)
  scope := fun m hm => h.scope m (hsub.subset hm)
  distinct := h.distinct.sublist (hsub.map _)

omit [RecallOps F] in
/-- Memories that are admitted, each once, are as they should be. -/
theorem isolated_of_admits (ha : q.agentId ≠ []) (hu : q.userId ≠ []) (h : ∀ m ∈ ms, admits q m.record = true)
    (hids : (ms.map (·.record.memoryId)).Nodup) : Isolated q ms := by
  have hparts : ∀ m ∈ ms, (m.record.isAlive = true ∧ m.record.agentId = q.agentId) ∧
      (m.record.scope ≠ .private ∨ m.record.userId = q.userId) := by
    intro m hm
    simpa [admits, ha, hu] using h m hm
  exact ⟨fun m hm => (hparts m hm).1.1, fun m hm => (hparts m hm).1.2, fun m hm => (hparts m hm).2, hids⟩

theorem withoutSuppressed_sublist (g : GraphStore F) (ms : List (ScoredMemory F)) :
    (withoutSuppressed g ms).Sublist ms := by
  unfold withoutSuppressed
  split
  · exact List.filter_sublist
  · exact List.Sublist.refl ms

omit [RecallOps F] in
theorem applyStaleness_sublist (p : EntityPatterns) (cfg : Option StalenessConfig) (ms : List (ScoredMemory F)) :
    (applyStaleness p cfg ms).Sublist ms := by
  unfold applyStaleness
  split
  · exact List.Sublist.refl ms
  · dsimp only
    split
    · exact List.filter_sublist
    · exact List.Sublist.refl ms

/-- **Who is answered** for hits that are found once. -/
theorem recallHits_isolated {p : Pipeline F} {x : RecallState F} {hits : List (UInt64 × F)} (ha : q.agentId ≠ [])
    (hu : q.userId ≠ []) (hown : Own x.store) (hnodup : (hits.map (·.1)).Nodup)
    (hsees : Sees p.entities (rankedOf p x.store x.graph q hits) q.topK) : Isolated q (recallHits p x q hits) := by
  obtain ⟨hadmits, honce⟩ := gather_candidates (p := p) (q := q) (g := x.graph) hown hnodup
  let found := gather p q x.graph x.store hits
  have hsub : (current found.store x.graph found.candidates).Sublist found.candidates := current_sublist _ _ _
  have hids := nodup_reranked p.reranker (honce.sublist (hsub.map _))
  obtain ⟨hamong, hdistinct⟩ := fuse_distinct p.entities p.draw hids hsees
  have hranked : Isolated q (rankAndFuse p.entities p.reranker p.draw
      (current found.store x.graph found.candidates) q.topK) := by
    refine isolated_of_admits ha hu (fun m hm => ?_) hdistinct
    obtain ⟨c, hc, hmc⟩ := exists_of_mem_reranked p.reranker (hamong m hm)
    rw [hmc]
    exact hadmits c (hsub.subset hc)
  exact (hranked.sublist (withoutSuppressed_sublist _ _)).sublist (applyStaleness_sublist _ _ _)

/-- **Who is answered.** In every run of a store, whatever the graph and the question,
a recall answers memories of the agent that are alive, of other users none that are
private, and each of them once, if no round of its selection is blind. -/
theorem recall_isolated (c : Config F) (h : HNSWConfig F) (acts : List (Act F)) (g : GraphStore F) (p : Pipeline F)
    (casts : SizeCasts F) (order : Shuffle) (q : RecallQuery) (ha : q.agentId ≠ []) (hu : q.userId ≠ [])
    {answered : List (ScoredMemory F)}
    (hsees : p.NeverBlind casts order (Run.run Opened.act (Opened.start c h) acts) g q)
    (hanswered : p.recallOpened casts order (Run.run Opened.act (Opened.start c h) acts) g q = .ok (some answered)) :
    Isolated q answered := by
  have hown : Own (Run.run Opened.act (Opened.start c h) acts).store :=
    (Run.run_inv Opened.act (I := fun _ y => y.Sound ∧ Own y.store) (C := fun _ _ => True)
      (fun _ _ a hy _ => ⟨hy.1.act a, Opened.own_act hy.1 hy.2 a⟩) acts [] _
      ⟨Opened.sound_start c h, everywhere_new c⟩ (Run.along_true _ _)).2
  rw [Pipeline.recallOpened] at hanswered
  cases hv : p.embed q.searchQuery with
  | error e =>
    rw [hv] at hanswered
    cases hanswered
  | ok v =>
    rw [hv] at hanswered
    obtain ⟨hits, hhits, rfl⟩ := Option.map_eq_some_iff.mp (Except.ok.inj hanswered)
    exact recallHits_isolated ha hu hown (nodup_semanticHits hhits) (hsees v hits hv hhits)

end Answering

/-! ### Three notes of Ann -/

def line : HNSWConfig Fixed := { dimension := 1, computeDistance := cosineDistance }

def fixedCasts : SizeCasts Fixed := exactCasts

/-- Three notes with the same text are stored. -/
def threeStored : List (Act Fixed) :=
  [1, 2, 3].map fun id =>
    .turn (.call (.fastStore (privateNote id (Utf8.bytes "ann") (Utf8.bytes "I live in Oslo") .raw 10) [] 5) 0)

/-- Without a reranker there is room for all. -/
theorem isolated_threeStored : ∃ answered,
    byMeaning.recallOpened fixedCasts inOrder (Run.run Opened.act (Opened.start tenCached line) threeStored) {}
      whereAnnLives = .ok (some answered) ∧ Isolated whereAnnLives answered := by
  have hfound : (semanticHits fixedCasts inOrder (Run.run Opened.act (Opened.start tenCached line) threeStored)
      whereAnnLives [(1 : ℚ)]).map (fun hits => (rankedOf byMeaning
        (Run.run Opened.act (Opened.start tenCached line) threeStored).store {} whereAnnLives hits).length) =
      some 3 := by
    decide +kernel
  obtain ⟨hits, hhits, hlength⟩ := Option.map_eq_some_iff.mp hfound
  have hanswered : byMeaning.recallOpened fixedCasts inOrder
      (Run.run Opened.act (Opened.start tenCached line) threeStored) {} whereAnnLives = .ok (some _) :=
    congrArg (fun found => Except.ok (Option.map _ found)) hhits
  refine ⟨_, hanswered, recall_isolated tenCached line threeStored {} byMeaning fixedCasts inOrder whereAnnLives
    (by decide) (by decide) (fun v hits' hv hhits' hlt => ?_) hanswered⟩
  cases Except.ok.inj hv
  rw [Option.some.inj (hhits'.symm.trans hhits), hlength] at hlt
  exact absurd hlt (by decide)

/-- With a reranker that finds the second and the third far worse than the first. -/
def rerankedFar : Pipeline Fixed :=
  { byMeaning with
    reranker := some fun _ _ _ => .ok [(0, (1 / 2 : ℚ)), (1, (-340282366920938463463374607431768211455 : ℚ)),
      (2, (-340282366920938463463374607431768211455 : ℚ))] }

/-- Ann is answered the first note, and once more what stayed behind of it. -/
theorem not_isolated_rerankedFar : ∃ answered,
    rerankedFar.recallOpened fixedCasts inOrder (Run.run Opened.act (Opened.start tenCached line) threeStored) {}
      { whereAnnLives with topK := 2 } = .ok (some answered) ∧ answered.map (·.record.memoryId) = [1, 1] ∧
    answered.map (·.record.agentId) = [Utf8.bytes "default", []] ∧
    ¬ Isolated { whereAnnLives with topK := 2 } answered := by
  have hshown : (rerankedFar.recallOpened fixedCasts inOrder
      (Run.run Opened.act (Opened.start tenCached line) threeStored) {} { whereAnnLives with topK := 2 }).toOption.map
        (·.map (·.map fun m => (m.record.memoryId, m.record.agentId))) =
      some (some [(1, Utf8.bytes "default"), (1, [])]) := by
    decide +kernel
  cases hr : rerankedFar.recallOpened fixedCasts inOrder
      (Run.run Opened.act (Opened.start tenCached line) threeStored) {} { whereAnnLives with topK := 2 } with
  | error e =>
    rw [hr] at hshown
    cases hshown
  | ok found =>
    rw [hr] at hshown
    obtain ⟨answered, rfl, hmap⟩ := Option.map_eq_some_iff.mp (Option.some.inj hshown)
    have hids : answered.map (·.record.memoryId) = [1, 1] := by
      have h := congrArg (List.map Prod.fst) hmap
      rwa [List.map_map] at h
    have hagents : answered.map (·.record.agentId) = [Utf8.bytes "default", []] := by
      have h := congrArg (List.map Prod.snd) hmap
      rwa [List.map_map] at h
    refine ⟨answered, rfl, hids, hagents, fun h => ?_⟩
    have hdistinct := h.distinct
    rw [hids] at hdistinct
    exact absurd hdistinct (by decide)

end Retrieval
end Amind
