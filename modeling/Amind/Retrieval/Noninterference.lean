/-
# What others' private memories do to a recall

A user may not see private memories of others. The index is searched without those
that are known to be such, and the others are left out when they are looked up. But
what is answered still depends on them: edges to them count for a memory's score,
superseded ones take memories with them that say the same, whoever's these are, and
those that are not cached take up room in the search.

Two states that differ only in such memories (`DifferIn`) are answered alike if these
three come to the same in both, for what the user may be answered (`ScansAgree`,
`recall_congr`). They do where the others' memories stay out of all three
(`scansAgree_of_unaffected`).
-/
import Amind.Lib.Hiding
import Amind.Memory.Enumerate
import Amind.Retrieval.Recall

namespace Amind
namespace Retrieval

open Amind.Core Amind.Memory Amind.Graph Amind.Hiding

section Statement

variable {F : Type} [RecallOps F]

/-- The memory is a private one of someone else. -/
def OthersPrivate (userId : Text) (r : MemoryRecord F) : Prop := r.scope = .private ∧ r.userId ≠ userId

/-- The states differ in private memories of other users, the ones with these ids,
and in the edges and vectors of these. -/
structure DifferIn (userId : Text) (ids : List UInt64) (x x' : RecallState F) : Prop where
  config : x.store.config = x'.store.config
  cache : ∀ id, id ∉ ids → x.store.cache.lookup id = x'.store.cache.lookup id
  lsm : ∀ id, id ∉ ids → x.store.lsm id = x'.store.lsm id
  others : ∀ id ∈ ids, ∀ r, x.store.load id = some r → OthersPrivate userId r
  others' : ∀ id ∈ ids, ∀ r, x'.store.load id = some r → OthersPrivate userId r
  edges : ∀ id, id ∉ ids →
    ((x.graph.getEdges id).filter fun e => e.toId ∉ ids) = (x'.graph.getEdges id).filter fun e => e.toId ∉ ids
  allEdges : (x.graph.getAllEdges.filter fun e => e.fromId ∉ ids ∧ e.toId ∉ ids) =
    x'.graph.getAllEdges.filter fun e => e.fromId ∉ ids ∧ e.toId ∉ ids
  index : (x.index.filter fun e => e.1 ∉ ids) = x'.index.filter fun e => e.1 ∉ ids

/-- The distances from a vector can be compared, so that a search is exact. -/
structure Comparable (distance : List F → List F → F) : Prop where
  total : ∀ v a b, distance v a ≤ distance v b ∨ distance v b ≤ distance v a
  trans : ∀ v a b c, distance v a ≤ distance v b → distance v b ≤ distance v c → distance v a ≤ distance v c

/-- What the search has found. -/
def hitsOf (p : Pipeline F) (q : RecallQuery) (x : RecallState F) (v : List F) : List (UInt64 × F) :=
  nearest p.distance v (q.topK * 10 % 2 ^ 64) (searched x q)

/-- What it has cut off. -/
def cutOff (p : Pipeline F) (q : RecallQuery) (x : RecallState F) (v : List F) : List (UInt64 × List F) :=
  ((searched x q).insertionSort fun a b => p.distance v a.2 ≤ p.distance v b.2).drop (q.topK * 10 % 2 ^ 64)

/-- None of the memories with these ids takes the room of another. -/
def Roomy (p : Pipeline F) (q : RecallQuery) (ids : List UInt64) (x : RecallState F) (v : List F) : Prop :=
  (∀ e ∈ cutOff p q x v, e.1 ∈ ids) ∨ ∀ hit ∈ hitsOf p q x v, hit.1 ∉ ids

/-- A memory is left out for what was superseded: it is the raw memory of a derived
one that was, or its text overlaps with a fact that was. -/
def leftOut (s : MemoryStore F) (g : GraphStore F) (r : MemoryRecord F) : Bool :=
  r.layer = .raw && decide (r.memoryId ∈ supersededParents s g.getSupersedes) ||
    echoes (supersededInfos s g g.getSupersedes) r

/-- The user may be answered the record of a memory that is found. -/
def Answerable (p : Pipeline F) (q : RecallQuery) (ids : List UInt64) (x : RecallState F) (v : List F) (id : UInt64)
    (r : MemoryRecord F) : Prop :=
  id ∉ ids ∧ (∃ hit ∈ hitsOf p q x v, hit.1 = id) ∧ x.store.load id = some r ∧ admits q r = true

/-- The scans that do not ask for the user come to the same in both states: the search
has room for what it finds besides the memories with these ids, and what the user may
be answered has as many neighbours and is left out for the same. -/
structure ScansAgree (p : Pipeline F) (q : RecallQuery) (ids : List UInt64) (x x' : RecallState F) (v : List F) :
    Prop where
  room : Roomy p q ids x v
  room' : Roomy p q ids x' v
  neighbors : ∀ id r, Answerable p q ids x v id r →
    (x.graph.getNeighbors id).length = (x'.graph.getNeighbors id).length
  leftOut : ∀ id r, Answerable p q ids x v id r → leftOut x.store x.graph r = leftOut x'.store x'.graph r

/-- The memories with these ids stay out of the recall: what the user may be
answered has no edges to them, and none of them superseded another or was superseded
or derived from by a memory that was. -/
structure Unaffected (p : Pipeline F) (q : RecallQuery) (ids : List UInt64) (x : RecallState F) (v : List F) :
    Prop where
  room : Roomy p q ids x v
  neighbors : ∀ id r, Answerable p q ids x v id r → ∀ n ∈ x.graph.getNeighbors id, n ∉ ids
  supersedes : ∀ e ∈ x.graph.getSupersedes, e.fromId ∉ ids ∧ e.toId ∉ ids
  parents : ∀ e ∈ x.graph.getSupersedes, ∀ r, x.store.load e.toId = some r → r.layer = .derived →
    r.parentId ≠ 0 → r.parentId ∉ ids

end Statement

/-! ### Looking up -/

section Reading

variable {F : Type} {s₀ s : MemoryStore F} {q : RecallQuery} {r r' : MemoryRecord F}

/-- The store has the same records, up to what reading changes. -/
structure Reads (s₀ s : MemoryStore F) : Prop where
  config : s.config = s₀.config
  load : ∀ id, (s.load id).map (version .whole) = (s₀.load id).map (version .whole)

theorem Reads.refl (s : MemoryStore F) : Reads s s := ⟨rfl, fun _ => rfl⟩

/-- A record has an original. -/
theorem Reads.original (h : Reads s₀ s) {id : UInt64} (hr : s.load id = some r) :
    ∃ r₀, s₀.load id = some r₀ ∧ version .whole r₀ = version .whole r := by
  have hmap := h.load id
  rw [hr] at hmap
  exact Option.map_eq_some_iff.mp hmap.symm

theorem admits_congr (h : version .whole r = version .whole r') : admits q r = admits q r' :=
  have h' : admits q (version .whole r) = admits q (version .whole r') := congrArg (admits q) h
  h'

theorem not_admits_of_others (hq : q.named) (h : OthersPrivate q.userId r) : admits q r = false := by
  have hscope : (r.scope ≠ .private || q.userId = [] || r.userId = q.userId) = false := by
    simp [h.1, hq.1, h.2]
  rw [admits, hscope, Bool.and_false]

variable [RecallOps F]

theorem Reads.get (h : Reads s₀ s) (i : UInt64) (now : UInt32) : Reads s₀ (s.get i now).1 where
  config := (config_get s i now).trans h.config
  load := fun id => by
    rw [load_get]
    split
    · rename_i he
      rw [he, ← h.load i, Option.map_map]
      exact Option.map_congr fun r _ => MemoryStore.version_tryPromote _ s.config (MemoryStore.touch r now)
    · exact h.load id

theorem admits_touched (c : Config F) (now : UInt32) :
    admits q (MemoryStore.tryPromote c (MemoryStore.touch r now)) = admits q r :=
  admits_congr (MemoryStore.version_tryPromote _ c (MemoryStore.touch r now))

end Reading

/-! ### The candidates -/

section Gathering

variable {F : Type} {p : Pipeline F} {q : RecallQuery} {g g' : GraphStore F} {c c' : Gathered F}
  {hit : UInt64 × F} {s₀ s₀' : MemoryStore F} {ids : List UInt64}

/-- Two recalls have gathered the same, and none of the ids. -/
structure Alike (ids : List UInt64) (s₀ s₀' : MemoryStore F) (c c' : Gathered F) : Prop where
  reads : Reads s₀ c.store
  reads' : Reads s₀' c'.store
  same : ∀ id, id ∉ ids → c.store.load id = c'.store.load id
  seen : c.seen = c'.seen
  unseen : ∀ id ∈ c.seen, id ∉ ids
  candidates : c.candidates = c'.candidates
  visible : ∀ m ∈ c.candidates, m.record.memoryId ∉ ids

theorem Alike.symm (h : Alike ids s₀ s₀' c c') : Alike ids s₀' s₀ c' c :=
  ⟨h.reads', h.reads, fun id hid => (h.same id hid).symm, h.seen.symm, h.seen ▸ h.unseen, h.candidates.symm,
    h.candidates ▸ h.visible⟩

variable [RecallOps F]

/-- A memory that the user may not see leaves its count of accesses. -/
theorem gatherOne_of_not_admits (h : ∀ r, c.store.load hit.1 = some r → admits q r = false) :
    gatherOne p q g c hit = { c with store := (c.store.get hit.1 (q.readAt hit.1)).1 } := by
  rw [gatherOne, get_snd]
  cases hl : c.store.load hit.1 with
  | none => rfl
  | some r =>
    show (if admits q _ then _ else _) = _
    rw [admits_touched, h r hl]
    rfl

theorem gatherOne_of_admits {r : MemoryRecord F} (hr : c.store.load hit.1 = some r) (h : admits q r = true) :
    gatherOne p q g c hit =
      { store := (c.store.get hit.1 (q.readAt hit.1)).1
        seen := c.seen ++ [hit.1]
        candidates := c.candidates ++
          [scored p q (MemoryStore.tryPromote c.store.config (MemoryStore.touch r (q.readAt hit.1))) hit.2
            (g.getNeighbors hit.1) c.seen (q.scoredAt hit.1)] } := by
  rw [gatherOne, get_snd, hr]
  show (if admits q _ then _ else _) = _
  rw [admits_touched, h]
  rfl

/-- A hidden memory is passed over. -/
theorem Alike.skip (hq : q.named) (hothers : ∀ id ∈ ids, ∀ r, s₀.load id = some r → OthersPrivate q.userId r)
    (h : Alike ids s₀ s₀' c c') (hid : hit.1 ∈ ids) : Alike ids s₀ s₀' (gatherOne p q g c hit) c' := by
  have hnone : ∀ r, c.store.load hit.1 = some r → admits q r = false := by
    intro r hr
    obtain ⟨r₀, hr₀, hv⟩ := h.reads.original hr
    rw [← admits_congr hv]
    exact not_admits_of_others hq (hothers _ hid r₀ hr₀)
  rw [gatherOne_of_not_admits hnone]
  refine ⟨h.reads.get _ _, h.reads', fun id hout => ?_, h.seen, h.unseen, h.candidates, h.visible⟩
  rw [load_get, if_neg fun he : id = hit.1 => hout (he ▸ hid)]
  exact h.same id hout

/-- Of the neighbours only those count that are among the candidates, and how many
there are. -/
theorem scored_congr {r : MemoryRecord F} {similarity : F} {id : UInt64} {seen : List UInt64} {now : UInt32}
    (hseen : ∀ n ∈ seen, n ∉ ids)
    (hedges : ((g.getEdges id).filter fun e => e.toId ∉ ids) = (g'.getEdges id).filter fun e => e.toId ∉ ids)
    (hlength : (g.getNeighbors id).length = (g'.getNeighbors id).length) :
    scored p q r similarity (g.getNeighbors id) seen now = scored p q r similarity (g'.getNeighbors id) seen now := by
  have hcount : ∀ g : GraphStore F, (g.getNeighbors id).countP (fun n => seen.contains n) =
      ((g.getEdges id).filter fun e => e.toId ∉ ids).countP fun e => seen.contains e.toId := by
    intro g
    rw [GraphStore.getNeighbors, List.countP_map, List.countP_filter]
    refine List.countP_congr fun e _ => ?_
    have hout : seen.contains e.toId = true → e.toId ∉ ids := fun hc => hseen _ (List.contains_iff_mem.mp hc)
    simp only [Function.comp_apply, Bool.and_eq_true, decide_eq_true_eq]
    exact ⟨fun hc => ⟨hc, hout hc⟩, fun hc => hc.1⟩
  unfold scored
  rw [hcount g, hcount g', hedges, hlength]

/-- Another one is looked up in both. -/
theorem Alike.both (hconfig : s₀.config = s₀'.config) (ho : Own s₀) (h : Alike ids s₀ s₀' c c') (hid : hit.1 ∉ ids)
    (hedges : ((g.getEdges hit.1).filter fun e => e.toId ∉ ids) =
      (g'.getEdges hit.1).filter fun e => e.toId ∉ ids)
    (hneighbors : ∀ r, s₀.load hit.1 = some r → admits q r = true →
      (g.getNeighbors hit.1).length = (g'.getNeighbors hit.1).length) :
    Alike ids s₀ s₀' (gatherOne p q g c hit) (gatherOne p q g' c' hit) := by
  have hconfig' : c.store.config = c'.store.config := h.reads.config.trans (hconfig.trans h.reads'.config.symm)
  have hsame : ∀ id, id ∉ ids → (c.store.get hit.1 (q.readAt hit.1)).1.load id =
      (c'.store.get hit.1 (q.readAt hit.1)).1.load id := by
    intro id hout
    rw [load_get, load_get, h.same _ hid, h.same id hout, hconfig']
  by_cases hadmits : ∃ r, c.store.load hit.1 = some r ∧ admits q r = true
  · obtain ⟨r, hr, ha⟩ := hadmits
    have hr' : c'.store.load hit.1 = some r := (h.same _ hid).symm.trans hr
    obtain ⟨r₀, hr₀, hv⟩ := h.reads.original hr
    have hn := hneighbors r₀ hr₀ ((admits_congr hv).trans ha)
    rw [gatherOne_of_admits hr ha, gatherOne_of_admits hr' ha, ← h.seen, scored_congr h.unseen hedges hn,
      h.candidates, hconfig']
    refine ⟨h.reads.get _ _, h.reads'.get _ _, hsame, rfl, fun n hin => ?_, rfl, fun m hm => ?_⟩
    · rcases List.mem_append.mp hin with hin | hin
      · exact h.unseen n hin
      · rw [List.mem_singleton.mp hin]
        exact hid
    rcases List.mem_append.mp hm with hm | hm
    · exact h.visible m (h.candidates ▸ hm)
    · have hrecord : version .whole m.record = version .whole r := by
        rw [List.mem_singleton.mp hm]
        exact MemoryStore.version_tryPromote _ _ _
      have hname : m.record.memoryId = r₀.memoryId := congrArg (fun r => r.memoryId) (hrecord.trans hv.symm)
      rw [hname, ho.load hr₀]
      exact hid
  · have hnone : ∀ r, c.store.load hit.1 = some r → admits q r = false :=
      fun r hr => Bool.eq_false_iff.mpr fun ha => hadmits ⟨r, hr, ha⟩
    have hnone' : ∀ r, c'.store.load hit.1 = some r → admits q r = false :=
      fun r hr => hnone r ((h.same _ hid).trans hr)
    rw [gatherOne_of_not_admits hnone, gatherOne_of_not_admits hnone']
    exact ⟨h.reads.get _ _, h.reads'.get _ _, hsame, h.seen, h.unseen, h.candidates, h.visible⟩

/-- What is gathered from two lists of hits that differ in hidden ones. -/
theorem gather_alike {x x' : RecallState F} {hits hits' : List (UInt64 × F)} (hq : q.named)
    (hd : DifferIn q.userId ids x x') (ho : Own x.store)
    (he : (hits.filter fun hit => hit.1 ∉ ids) = hits'.filter fun hit => hit.1 ∉ ids)
    (hneighbors : ∀ hit ∈ hits, hit.1 ∉ ids → ∀ r, x.store.load hit.1 = some r → admits q r = true →
      (x.graph.getNeighbors hit.1).length = (x'.graph.getNeighbors hit.1).length) :
    Alike ids x.store x'.store (gather p q x.graph x.store hits) (gather p q x'.graph x'.store hits') := by
  have hload : ∀ id, id ∉ ids → x.store.load id = x'.store.load id := by
    intro id hid
    rw [MemoryStore.load, MemoryStore.load, hd.cache id hid, hd.lsm id hid]
  have hstart : Alike ids x.store x'.store ⟨x.store, [], []⟩ ⟨x'.store, [], []⟩ :=
    ⟨.refl _, .refl _, hload, rfl, fun _ hn => absurd hn List.not_mem_nil, rfl,
      fun _ hm => absurd hm List.not_mem_nil⟩
  refine related_foldl (R := Alike ids x.store x'.store) ?_ ?_ hits hits' _ _ ?_ he hstart
  · intro c c' hit hid h
    exact h.skip hq hd.others (by simpa using hid)
  · intro c c' hit hid h
    exact (h.symm.skip hq hd.others' (by simpa using hid)).symm
  · intro c c' hit hhit hid h
    have hout : hit.1 ∉ ids := by simpa using hid
    exact h.both hd.config ho hout (hd.edges hit.1 hout) (hneighbors hit hhit hout)

/-- The record of a hit that the user may see. -/
def Admitted (q : RecallQuery) (s₀ : MemoryStore F) (hits : List (UInt64 × F)) (m : ScoredMemory F) : Prop :=
  ∃ hit ∈ hits, ∃ r, s₀.load hit.1 = some r ∧ admits q r = true ∧ version .whole m.record = version .whole r

theorem admitted_gatherOne {hits : List (UInt64 × F)} (hhit : hit ∈ hits) (hreads : Reads s₀ c.store)
    (hc : ∀ m ∈ c.candidates, Admitted q s₀ hits m) :
    Reads s₀ (gatherOne p q g c hit).store ∧ ∀ m ∈ (gatherOne p q g c hit).candidates, Admitted q s₀ hits m := by
  by_cases hadmits : ∃ r, c.store.load hit.1 = some r ∧ admits q r = true
  · obtain ⟨r, hr, ha⟩ := hadmits
    obtain ⟨r₀, hr₀, hv⟩ := hreads.original hr
    rw [gatherOne_of_admits hr ha]
    refine ⟨hreads.get _ _, fun m hm => ?_⟩
    rcases List.mem_append.mp hm with hm | hm
    · exact hc m hm
    · rw [List.mem_singleton.mp hm]
      exact ⟨hit, hhit, r₀, hr₀, (admits_congr hv).trans ha, (MemoryStore.version_tryPromote _ _ _).trans hv.symm⟩
  · have hnone : ∀ r, c.store.load hit.1 = some r → admits q r = false :=
      fun r hr => Bool.eq_false_iff.mpr fun ha => hadmits ⟨r, hr, ha⟩
    rw [gatherOne_of_not_admits hnone]
    exact ⟨hreads.get _ _, hc⟩

theorem admitted_gather (p : Pipeline F) (q : RecallQuery) (g : GraphStore F) (s : MemoryStore F)
    (hits : List (UInt64 × F)) : ∀ m ∈ (gather p q g s hits).candidates, Admitted q s hits m := by
  let motive : Gathered F → Prop := fun c => Reads s c.store ∧ ∀ m ∈ c.candidates, Admitted q s hits m
  have hrun : motive (gather p q g s hits) :=
    List.foldlRecOn (motive := motive) hits (gatherOne p q g) ⟨.refl s, fun _ hm => absurd hm List.not_mem_nil⟩
      fun _ hc _ hhit => admitted_gatherOne hhit hc.1 hc.2
  exact hrun.2

end Gathering

/-! ### The hits -/

section Hits

variable {F : Type} [RecallOps F] {p : Pipeline F} {q : RecallQuery} {ids : List UInt64} {x x' : RecallState F}
  {v : List F}

/-- The hits that are not hidden are the nearest of those. -/
theorem hits_visible (hp : Comparable p.distance) (hroom : Roomy p q ids x v) :
    ((hitsOf p q x v).filter fun hit => hit.1 ∉ ids) =
      nearest p.distance v (q.topK * 10 % 2 ^ 64) ((searched x q).filter fun e => e.1 ∉ ids) := by
  have htotal : Std.Total fun a b : UInt64 × List F => p.distance v a.2 ≤ p.distance v b.2 :=
    ⟨fun a b => hp.total v a.2 b.2⟩
  have htrans : IsTrans (UInt64 × List F) fun a b => p.distance v a.2 ≤ p.distance v b.2 :=
    ⟨fun a b c => hp.trans v a.2 b.2 c.2⟩
  have hcut := filter_take_iff (p := fun e : UInt64 × List F => e.1 ∉ ids) (k := q.topK * 10 % 2 ^ 64)
    (l := (searched x q).insertionSort fun a b => p.distance v a.2 ≤ p.distance v b.2) |>.mpr <| by
      refine hroom.imp (fun h e he => by simpa using h e he) fun h e he => ?_
      exact decide_eq_true (h _ (List.mem_map_of_mem he))
  rw [filter_insertionSort] at hcut
  rw [hitsOf, nearest, nearest, List.filter_map, ← hcut]
  rfl

omit [RecallOps F] in
theorem peekScopeMatch_congr {s s' : MemoryStore F} {id : UInt64} (h : s.cache.lookup id = s'.cache.lookup id)
    (userId : Text) : peekScopeMatch s id userId = peekScopeMatch s' id userId := by
  rw [peekScopeMatch, peekScopeMatch, h]

omit [RecallOps F] in
theorem searched_visible (hd : DifferIn q.userId ids x x') :
    ((searched x q).filter fun e => e.1 ∉ ids) = (searched x' q).filter fun e => e.1 ∉ ids := by
  unfold searched
  split
  · have hswap : ∀ y : RecallState F, ((y.index.filter fun e => peekScopeMatch y.store e.1 q.userId).filter
        fun e => e.1 ∉ ids) = (y.index.filter fun e => e.1 ∉ ids).filter fun e => peekScopeMatch y.store e.1 q.userId :=
      fun y => List.filter_comm _ _ _
    rw [hswap, hswap, ← hd.index]
    refine List.filter_congr fun e he => peekScopeMatch_congr (hd.cache e.1 ?_) q.userId
    simpa using (List.mem_filter.mp he).2
  · exact hd.index

end Hits

/-! ### What was superseded -/

section Superseded

variable {F : Type} {s s' : MemoryStore F} {g g' : GraphStore F} {edges : List (GraphEdge F)} {ids : List UInt64}

theorem getSupersedes_of_getEdges {e : GraphEdge F} {id : UInt64} (he : e ∈ g.getEdges id) (ht : e.type = .supersedes) :
    e ∈ g.getSupersedes := by
  refine List.mem_filter.mpr ⟨?_, by simp [ht]⟩
  unfold GraphStore.getEdges at he
  cases hl : g.adjacency.lookup id with
  | none =>
    rw [hl] at he
    cases he
  | some es =>
    rw [hl] at he
    exact List.mem_flatMap.mpr ⟨⟨id, es⟩, AList.mem_lookup_iff.mp hl, he⟩

/-- The walks see the same, up to what reading changes: the edges stay out of the ids,
and so does what a superseded memory was derived from. -/
structure Clear (ids : List UInt64) (edges : List (GraphEdge F)) (s s' : MemoryStore F) (g g' : GraphStore F) :
    Prop where
  load : ∀ id, id ∉ ids → (s.load id).map (version .whole) = (s'.load id).map (version .whole)
  ends : ∀ e ∈ edges, e.fromId ∉ ids ∧ e.toId ∉ ids
  parents : ∀ e ∈ edges, ∀ r, s.load e.toId = some r → r.layer = .derived → r.parentId ≠ 0 → r.parentId ∉ ids
  older : ∀ e ∈ edges, ((g.getEdges e.toId).filter fun e => e.type = .supersedes) =
    (g'.getEdges e.toId).filter fun e => e.type = .supersedes
  closed : ∀ id, ∀ e ∈ g.getEdges id, e.type = .supersedes → e ∈ edges

theorem isAlive_congr {r r' : MemoryRecord F} (hv : version .whole r = version .whole r') : r.isAlive = r'.isAlive :=
  have halive : (version .whole r).isAlive = (version .whole r').isAlive := congrArg MemoryRecord.isAlive hv
  halive

/-- Nothing is read in both, or two versions of a record. -/
theorem load_versions {id : UInt64} (h : (s.load id).map (version .whole) = (s'.load id).map (version .whole)) :
    s.load id = none ∧ s'.load id = none ∨
      ∃ r r', s.load id = some r ∧ s'.load id = some r' ∧ version .whole r = version .whole r' := by
  cases hr : s.load id with
  | none =>
    rw [hr] at h
    exact .inl ⟨rfl, Option.map_eq_none_iff.mp h.symm⟩
  | some r =>
    rw [hr] at h
    obtain ⟨r', hr', hv⟩ := Option.map_eq_some_iff.mp h.symm
    exact .inr ⟨r, r', rfl, hr', hv.symm⟩

variable (h : Clear ids edges s s' g g')

include h

theorem Clear.supersededParents : supersededParents s edges = supersededParents s' edges := by
  refine List.filterMap_congr fun e he => ?_
  obtain ⟨hr, hr'⟩ | ⟨r, r', hr, hr', hv⟩ := load_versions (h.load e.toId (h.ends e he).2)
  · rw [hr, hr']
  · have hlayer : r.layer = r'.layer := congrArg (fun r => r.layer) hv
    have hparent : r.parentId = r'.parentId := congrArg (fun r => r.parentId) hv
    rw [hr, hr', Option.bind_some, Option.bind_some, hlayer, hparent]

theorem Clear.supersededBy {id next : UInt64} (hn : supersededBy edges id = some next) : next ∉ ids := by
  obtain ⟨e, he, rfl⟩ := Option.map_eq_some_iff.mp hn
  exact (h.ends e (List.mem_reverse.mp (List.mem_of_find?_eq_some he))).1

theorem Clear.alive {id : UInt64} (hid : id ∉ ids) :
    (s.load id).any MemoryRecord.isAlive = (s'.load id).any MemoryRecord.isAlive := by
  obtain ⟨hr, hr'⟩ | ⟨r, r', hr, hr', hv⟩ := load_versions (h.load id hid)
  · rw [hr, hr']
  · have halive : r.isAlive = r'.isAlive := isAlive_congr hv
    rw [hr, hr', Option.any_some, Option.any_some, halive]

theorem Clear.climb : ∀ (n : ℕ) (visited : List UInt64) (cur terminal : UInt64), terminal ∉ ids →
    climb s edges n visited cur terminal = climb s' edges n visited cur terminal ∧
      climb s edges n visited cur terminal ∉ ids
  | 0, _, _, _, ht => ⟨rfl, ht⟩
  | n + 1, visited, cur, terminal, ht => by
    rw [Retrieval.climb, Retrieval.climb]
    split
    · exact ⟨rfl, ht⟩
    · cases hn : Retrieval.supersededBy edges cur with
      | none => exact ⟨rfl, ht⟩
      | some next =>
        have hnext := h.supersededBy hn
        dsimp only
        rw [← h.alive hnext]
        refine Clear.climb n (cur :: visited) next _ ?_
        split
        · exact hnext
        · exact ht

theorem Clear.collect {e : GraphEdge F} (he : e ∈ edges) {r r' : MemoryRecord F} (hr : s.load e.toId = some r)
    (hv : version .whole r = version .whole r') (ts : UInt32) (visited : List UInt64) (infos : List SupersededInfo) :
    collect s ts r visited infos = collect s' ts r' visited infos := by
  have hlayer : r.layer = r'.layer := congrArg (fun r => r.layer) hv
  have hparent : r.parentId = r'.parentId := congrArg (fun r => r.parentId) hv
  have hcontent : r.content = r'.content := congrArg (fun r => r.content) hv
  unfold Retrieval.collect
  rw [← hlayer, ← hparent, ← hcontent]
  split
  · rename_i hderived
    by_cases hp : r.parentId = 0
    · rw [if_pos hp, if_pos hp]
    · rw [if_neg hp, if_neg hp]
      obtain ⟨hr₁, hr₂⟩ | ⟨a, a', hr₁, hr₂, hva⟩ := load_versions (h.load _ (h.parents e he r hr hderived hp))
      · rw [hr₁, hr₂]
      · have hold : a.content = a'.content := congrArg (fun r => r.content) hva
        rw [hr₁, hr₂]
        dsimp only
        rw [hold]
  · rfl

theorem Clear.descend (ts : UInt32) : ∀ (n : ℕ) (queue visited : List UInt64) (infos : List SupersededInfo),
    (∀ id ∈ queue, ∃ e ∈ edges, e.toId = id) →
      descend s g ts n queue visited infos = descend s' g' ts n queue visited infos
  | 0, _, _, _, _ => rfl
  | _ + 1, [], _, _, _ => rfl
  | n + 1, cur :: queue, visited, infos, hqueue => by
    have htail : ∀ id ∈ queue, ∃ e ∈ edges, e.toId = id := fun id hid => hqueue id (List.mem_cons_of_mem cur hid)
    obtain ⟨e, he, rfl⟩ := hqueue cur List.mem_cons_self
    rw [Retrieval.descend, Retrieval.descend]
    split
    · exact Clear.descend ts n queue visited infos htail
    · obtain ⟨hr, hr'⟩ | ⟨r, r', hr, hr', hv⟩ := load_versions (h.load e.toId (h.ends e he).2)
      · rw [hr, hr']
        exact Clear.descend ts n queue _ infos htail
      · rw [hr, hr']
        dsimp only
        rw [h.collect he hr hv]
        have hswap : ∀ (es : List (GraphEdge F)) (visited : List UInt64),
            (es.filter fun e => e.type = .supersedes ∧ e.toId ∉ visited) =
              (es.filter fun e => e.type = .supersedes).filter fun e => e.toId ∉ visited := by
          intro es visited
          rw [List.filter_filter]
          exact List.filter_congr fun e _ => by rw [Bool.and_comm, Bool.decide_and]
        rw [hswap, hswap, ← h.older e he]
        refine Clear.descend ts n _ _ _ fun id hid => ?_
        rcases List.mem_append.mp hid with hid | hid
        · exact htail id hid
        · obtain ⟨e', he', rfl⟩ := List.mem_map.mp hid
          have hsup := List.mem_filter.mp (List.mem_filter.mp he').1
          exact ⟨e', h.closed _ e' hsup.1 (of_decide_eq_true hsup.2), rfl⟩

theorem Clear.supersededInfos : supersededInfos s g edges = supersededInfos s' g' edges := by
  have hone : ∀ c, ∀ e ∈ edges, supersededOne s g edges c e = supersededOne s' g' edges c e := by
    intro c e he
    obtain ⟨hclimb, hout⟩ := h.climb (edges.length + 2) [] e.fromId e.fromId (h.ends e he).1
    unfold supersededOne
    dsimp only
    rw [← hclimb]
    obtain ⟨hr, hr'⟩ | ⟨t, t', hr, hr', hv⟩ := load_versions (h.load _ hout)
    · rw [hr, hr']
    · have halive : t.isAlive = t'.isAlive := isAlive_congr hv
      have hcreated : t.createdAt = t'.createdAt := congrArg (fun r => r.createdAt) hv
      rw [hr, hr']
      dsimp only
      rw [← halive, ← hcreated, h.descend t.createdAt _ _ _ _ fun id hid => ⟨e, he, (List.mem_singleton.mp hid).symm⟩]
  exact congrArg Prod.snd (List.foldl_ext _ _ _ fun c e he => hone c e he)

end Superseded

section LeftOut

variable {F : Type} [RecallOps F] {s₀ s : MemoryStore F} {g : GraphStore F}

/-- What was superseded does not depend on what reading changes. -/
theorem leftOut_congr (h : Reads s₀ s) {r r' : MemoryRecord F} (hv : version .whole r = version .whole r') :
    leftOut s g r = leftOut s₀ g r' := by
  have hclear : Clear [] g.getSupersedes s s₀ g g :=
    ⟨fun id _ => h.load id, fun _ _ => ⟨List.not_mem_nil, List.not_mem_nil⟩, fun _ _ _ _ _ _ => List.not_mem_nil,
      fun _ _ => rfl, fun _ _ he ht => getSupersedes_of_getEdges he ht⟩
  have hrecord : ∀ r : MemoryRecord F, leftOut s g r = leftOut s g (version .whole r) := fun _ => rfl
  rw [hrecord r, hv, ← hrecord r', leftOut, leftOut, hclear.supersededParents, hclear.supersededInfos]

/-- The candidates that are ranked are those that are not left out. -/
theorem current_eq (candidates : List (ScoredMemory F)) : current s g candidates =
    (withoutRaw (derivedParents candidates) candidates).filter fun m => !leftOut s g m.record := by
  unfold current
  dsimp only
  rw [withoutRaw, List.filter_filter]
  refine List.filter_congr fun m _ => ?_
  unfold leftOut
  rw [Bool.not_or, Bool.and_comm]
  simp [Bool.not_and]

end LeftOut

section Suppressed

variable {F : Type} {g g' : GraphStore F} {ids : List UInt64}

/-- Edges out of what is ranked suppress nothing. -/
theorem suppressByEdges_congr {ranked : List (ScoredMemory F)} {m : ScoredMemory F}
    (hranked : ∀ m ∈ ranked, m.record.memoryId ∉ ids)
    (he : ((g.getEdges m.record.memoryId).filter fun e => e.toId ∉ ids) =
      (g'.getEdges m.record.memoryId).filter fun e => e.toId ∉ ids) :
    suppressByEdges g ranked m = suppressByEdges g' ranked m := by
  have hnot : ∀ e : GraphEdge F, ¬ (decide (e.toId ∉ ids)) = true →
      ¬ (ranked.map (·.record.memoryId)).contains e.toId = true := by
    intro e hid hc
    obtain ⟨m', hm', hname⟩ := List.mem_map.mp (List.contains_iff_mem.mp hc)
    exact hid (decide_eq_true (hname ▸ hranked m' hm'))
  unfold suppressByEdges
  rw [← flatMap_filter (p := fun e => e.toId ∉ ids) fun e _ hid => if_neg (hnot e hid), he,
    flatMap_filter fun e _ hid => if_neg (hnot e hid)]

theorem withoutSuppressed_congr [RecallOps F] {ranked : List (ScoredMemory F)}
    (hranked : ∀ m ∈ ranked, m.record.memoryId ∉ ids)
    (he : ∀ id, id ∉ ids → ((g.getEdges id).filter fun e => e.toId ∉ ids) =
      (g'.getEdges id).filter fun e => e.toId ∉ ids) :
    withoutSuppressed g ranked = withoutSuppressed g' ranked := by
  have hsuppress : (ranked.flatMap fun m => suppressByEdges g ranked m ++ suppressByParent ranked m) =
      ranked.flatMap fun m => suppressByEdges g' ranked m ++ suppressByParent ranked m :=
    List.flatMap_congr fun m hm => by rw [suppressByEdges_congr hranked (he _ (hranked m hm))]
  unfold withoutSuppressed
  rw [hsuppress]

end Suppressed

/-! ### Memories that stay out -/

section Agreeing

variable {F : Type} [RecallOps F] {p : Pipeline F} {q : RecallQuery} {ids : List UInt64} {x x' : RecallState F}

omit [RecallOps F] in
theorem load_congr (hd : DifferIn q.userId ids x x') {id : UInt64} (hid : id ∉ ids) :
    x.store.load id = x'.store.load id := by
  rw [MemoryStore.load, MemoryStore.load, hd.cache id hid, hd.lsm id hid]

/-- What the user may be answered in one state, in the other as well. -/
theorem Answerable.other {v : List F} {id : UInt64} {r : MemoryRecord F} (hp : Comparable p.distance)
    (hd : DifferIn q.userId ids x x') (hroom : Roomy p q ids x v) (hroom' : Roomy p q ids x' v)
    (h : Answerable p q ids x v id r) : Answerable p q ids x' v id r := by
  obtain ⟨hid, ⟨hit, hhit, rfl⟩, hr, ha⟩ := h
  have hmem : hit ∈ (hitsOf p q x v).filter fun hit => hit.1 ∉ ids := List.mem_filter.mpr ⟨hhit, decide_eq_true hid⟩
  rw [hits_visible hp hroom, searched_visible hd, ← hits_visible hp hroom'] at hmem
  exact ⟨hid, ⟨hit, (List.mem_filter.mp hmem).1, rfl⟩, (load_congr hd hid).symm.trans hr, ha⟩

variable {v : List F} (hd : DifferIn q.userId ids x x') (h : Unaffected p q ids x v) (h' : Unaffected p q ids x' v)

include hd h h'

theorem getSupersedes_congr : x.graph.getSupersedes = x'.graph.getSupersedes := by
  have happly : ∀ y : RecallState F, Unaffected p q ids y v → y.graph.getSupersedes =
      (y.graph.getAllEdges.filter fun e => e.fromId ∉ ids ∧ e.toId ∉ ids).filter fun e => e.type = .supersedes := by
    intro y hy
    rw [List.filter_comm]
    exact (List.filter_eq_self.mpr fun e he => decide_eq_true (hy.supersedes e he)).symm
  rw [happly x h, happly x' h', hd.allEdges]

theorem getNeighbors_congr (hp : Comparable p.distance) {id : UInt64} {r : MemoryRecord F}
    (ha : Answerable p q ids x v id r) : x.graph.getNeighbors id = x'.graph.getNeighbors id := by
  have hall : ∀ y : RecallState F, (∀ n ∈ y.graph.getNeighbors id, n ∉ ids) →
      ((y.graph.getEdges id).filter fun e => e.toId ∉ ids) = y.graph.getEdges id := by
    intro y hy
    exact List.filter_eq_self.mpr fun edge hedge => decide_eq_true (hy _ (List.mem_map_of_mem hedge))
  have hedges := hd.edges id ha.1
  rw [hall x (h.neighbors id r ha), hall x' (h'.neighbors id r (ha.other hp hd h.room h'.room))] at hedges
  rw [GraphStore.getNeighbors, GraphStore.getNeighbors, hedges]

theorem clear_of_unaffected : Clear ids x.graph.getSupersedes x.store x'.store x.graph x'.graph where
  load := fun _ hid => congrArg _ (load_congr hd hid)
  ends := h.supersedes
  parents := h.parents
  older := fun e he => by
    have happly : ∀ y : RecallState F, Unaffected p q ids y v →
        ((y.graph.getEdges e.toId).filter fun e => e.type = .supersedes) =
          ((y.graph.getEdges e.toId).filter fun e => e.toId ∉ ids).filter fun e => e.type = .supersedes := by
      intro y hy
      rw [List.filter_comm]
      refine (List.filter_eq_self.mpr fun e' he' => ?_).symm
      obtain ⟨hmem, ht⟩ := List.mem_filter.mp he'
      exact decide_eq_true (hy.supersedes e' (getSupersedes_of_getEdges hmem (of_decide_eq_true ht))).2
    rw [happly x h, happly x' h', hd.edges _ (h.supersedes e he).2]
  closed := fun _ _ he ht => getSupersedes_of_getEdges he ht

/-- **Memories that stay out.** The scans come to the same if the hidden memories stay
out of them in both states. -/
theorem scansAgree_of_unaffected (hp : Comparable p.distance) : ScansAgree p q ids x x' v where
  room := h.room
  room' := h'.room
  neighbors := fun _ _ ha => congrArg List.length (getNeighbors_congr hd h h' hp ha)
  leftOut := fun _ r _ => by
    have hclear := clear_of_unaffected hd h h'
    rw [leftOut, leftOut, ← getSupersedes_congr hd h h', ← hclear.supersededParents, ← hclear.supersededInfos]

end Agreeing

/-! ### Two recalls -/

section Recall

variable {F : Type} [RecallOps F] {p : Pipeline F} {q : RecallQuery} {ids : List UInt64} {x x' : RecallState F}
  {v : List F}

/-- What both have gathered is left out in both or in neither. -/
theorem current_congr (ho : Own x.store) (h : ScansAgree p q ids x x' v) {c c' : Gathered F}
    (halike : Alike ids x.store x'.store c c')
    (hadmitted : ∀ m ∈ c.candidates, Admitted q x.store (hitsOf p q x v) m) :
    current c.store x.graph c.candidates = current c'.store x'.graph c'.candidates := by
  rw [current_eq, current_eq, ← halike.candidates]
  refine List.filter_congr fun m hm => ?_
  have hcandidate : m ∈ c.candidates := (List.mem_filter.mp hm).1
  obtain ⟨hit, hhit, r, hr, ha, hv⟩ := hadmitted m hcandidate
  have hname : m.record.memoryId = hit.1 := (congrArg (fun r => r.memoryId) hv).trans (ho.load hr)
  have hanswerable : Answerable p q ids x v hit.1 r :=
    ⟨hname ▸ halike.visible m hcandidate, ⟨hit, hhit, rfl⟩, hr, ha⟩
  rw [leftOut_congr halike.reads hv, leftOut_congr halike.reads' hv, h.leftOut hit.1 r hanswerable]

theorem recallVector_congr (hp : Comparable p.distance) (hq : q.named) (ho : Own x.store)
    (hd : DifferIn q.userId ids x x') (h : ScansAgree p q ids x x' v) :
      recallVector p x q v = recallVector p x' q v := by
  have hhits : ((hitsOf p q x v).filter fun hit => hit.1 ∉ ids) = (hitsOf p q x' v).filter fun hit => hit.1 ∉ ids := by
    rw [hits_visible hp h.room, hits_visible hp h.room', searched_visible hd]
  have hgather := gather_alike (p := p) hq hd ho hhits fun hit hhit hid r hr ha =>
    h.neighbors hit.1 r ⟨hid, ⟨hit, hhit, rfl⟩, hr, ha⟩
  have hcurrent := current_congr ho h hgather (admitted_gather p q x.graph x.store (hitsOf p q x v))
  have hranked : ∀ m ∈ rankAndFuse p.entities p.reranker p.draw
      (current (gather p q x.graph x.store (hitsOf p q x v)).store x.graph
        (gather p q x.graph x.store (hitsOf p q x v)).candidates) q.topK, m.record.memoryId ∉ ids := by
    intro m hm
    obtain ⟨c, hcandidate, hname⟩ := memoryId_of_mem_rankAndFuse p.entities hm
    rw [hname]
    unfold current withoutRaw at hcandidate
    exact hgather.visible c (List.mem_filter.mp (List.mem_filter.mp (List.mem_filter.mp hcandidate).1).1).1
  show recallHits p x q (hitsOf p q x v) = recallHits p x' q (hitsOf p q x' v)
  unfold recallHits
  dsimp only
  rw [← hcurrent, withoutSuppressed_congr hranked hd.edges]

theorem recall_ok (hv : p.embed q.searchQuery = .ok v) : p.recall x q = .ok (recallVector p x q v) := by
  rw [Pipeline.recall, hv, Except.map]

theorem recall_error {e : Text} (hv : p.embed q.searchQuery = .error e) : p.recall x q = .error e := by
  rw [Pipeline.recall, hv, Except.map]

end Recall

/-! ### Two users -/

def tenCached : Config Fixed := ⟨1, 3, (1 : ℚ), 10, (1 : ℚ), 10, .whole⟩

/-- Only what was meant counts. -/
def byMeaning : Pipeline Fixed where
  embed := fun _ => .ok [(1 : ℚ)]
  distance := cosineDistance
  weights := { semantic := (1 : ℚ), keyword := (0 : ℚ), graph := (0 : ℚ), recency := (0 : ℚ), importance := (0 : ℚ) }
  entities := .silent
  staleness := none
  draw := fun _ => 0

theorem comparable_byMeaning : Comparable byMeaning.distance where
  total := fun _ _ _ => Rat.le_total
  trans := fun _ _ _ _ => Rat.le_trans

def whereAnnLives : RecallQuery where
  query := Utf8.bytes "Where do I live?"
  agentId := Utf8.bytes "default"
  userId := Utf8.bytes "ann"
  topK := 5
  readAt := fun _ => 30
  scoredAt := fun _ => 30

def privateNote (id : UInt64) (userId content : Text) (layer : MemoryLayer) (createdAt : UInt32) : MemoryRecord Fixed :=
  { MemoryRecord.zero with
    memoryId := id
    userId := userId
    agentId := Utf8.bytes "default"
    content := content
    layer := layer
    createdAt := createdAt
    embedding := [(1 : ℚ)] }

def annLives : MemoryRecord Fixed := privateNote 1 (Utf8.bytes "ann") (Utf8.bytes "I live in Oslo") .raw 10

def bobLived : MemoryRecord Fixed := privateNote 2 (Utf8.bytes "bob") (Utf8.bytes "lives in Oslo") .derived 5

def bobLives : MemoryRecord Fixed := privateNote 3 (Utf8.bytes "bob") (Utf8.bytes "lives in Rome") .derived 20

/-- A store of cached records that are stored as well. -/
def holding (cache : AList fun _ : UInt64 => MemoryRecord Fixed) : MemoryStore Fixed :=
  { MemoryStore.new tenCached with cache := cache, lsm := fun id => cache.lookup id }

def annAlone : RecallState Fixed := ⟨holding ((∅ : AList _).insert 1 annLives), {}, [(1, [(1 : ℚ)])]⟩

def moved (type : EdgeType) : GraphEdge Fixed := ⟨3, 2, type, (1 : ℚ), 20⟩

/-- And Bob has moved, with an edge of some type from where he lives to where he
lived. -/
def annAndBob (type : EdgeType) : RecallState Fixed :=
  ⟨holding ((((∅ : AList _).insert 2 bobLived).insert 3 bobLives).insert 1 annLives),
    ({} : GraphStore Fixed).addEdgeInternal 3 2 type (1 : ℚ) 20, [(1, [(1 : ℚ)]), (3, [(1 : ℚ)])]⟩

theorem lookup_insert {cache : AList fun _ : UInt64 => MemoryRecord Fixed} {id i : UInt64} {r : MemoryRecord Fixed} :
    (cache.insert i r).lookup id = if id = i then some r else cache.lookup id := by
  by_cases he : id = i
  · rw [if_pos he, he, AList.lookup_insert]
  · rw [if_neg he, AList.lookup_insert_ne he]

theorem lookup_annAlone (id : UInt64) :
    annAlone.store.cache.lookup id = if id = 1 then some annLives else none := by
  show ((∅ : AList fun _ : UInt64 => MemoryRecord Fixed).insert 1 annLives).lookup id = _
  rw [lookup_insert, AList.lookup_empty]

theorem lookup_annAndBob (type : EdgeType) (id : UInt64) : (annAndBob type).store.cache.lookup id =
    if id = 1 then some annLives else if id = 3 then some bobLives else if id = 2 then some bobLived else none := by
  show ((((∅ : AList fun _ : UInt64 => MemoryRecord Fixed).insert 2 bobLived).insert 3 bobLives).insert 1 annLives).lookup
    id = _
  rw [lookup_insert, lookup_insert, lookup_insert, AList.lookup_empty]

theorem own_holding {cache : AList fun _ : UInt64 => MemoryRecord Fixed}
    (h : ∀ id r, cache.lookup id = some r → r.memoryId = id) : Own (holding cache) := ⟨h, h⟩

theorem own_annAlone : Own annAlone.store := by
  refine own_holding fun id r hr => ?_
  have hr' := (lookup_annAlone id).symm.trans hr
  split at hr'
  · rename_i he
    cases hr'
    exact he.symm
  · cases hr'

theorem own_annAndBob (type : EdgeType) : Own (annAndBob type).store := by
  refine own_holding fun id r hr => ?_
  have hr' := (lookup_annAndBob type id).symm.trans hr
  split at hr'
  · rename_i he
    cases hr'
    exact he.symm
  · split at hr'
    · rename_i he
      cases hr'
      exact he.symm
    · split at hr'
      · rename_i he
        cases hr'
        exact he.symm
      · cases hr'

/-- There is one edge, from 3. -/
theorem getEdges_annAndBob {type : EdgeType} (ht : type.undirected = false) (id : UInt64) :
    (annAndBob type).graph.getEdges id = if id = 3 then [moved type] else [] := by
  have hgraph : (annAndBob type).graph.adjacency =
      AList.insert (3 : UInt64) [moved type] (∅ : AList fun _ : UInt64 => List (GraphEdge Fixed)) := by
    show (GraphStore.addEdgeInternal _ _ _ _ _ _).adjacency = _
    unfold GraphStore.addEdgeInternal
    rw [ht]
    rfl
  rw [GraphStore.getEdges, hgraph]
  by_cases he : id = 3
  · rw [he, AList.lookup_insert]
    rfl
  · rw [AList.lookup_insert_ne he, AList.lookup_empty, if_neg he]
    rfl

theorem getAllEdges_annAndBob {type : EdgeType} (ht : type.undirected = false) :
    (annAndBob type).graph.getAllEdges = [moved type] := by
  show (GraphStore.addEdgeInternal _ _ _ _ _ _).getAllEdges = _
  unfold GraphStore.addEdgeInternal
  rw [ht]
  rfl

/-- Bob's memories are private, and all that is new. -/
theorem differ_annAndBob {type : EdgeType} (ht : type.undirected = false) :
    DifferIn whereAnnLives.userId [2, 3] annAlone (annAndBob type) where
  config := rfl
  cache := fun id hid => by
    obtain ⟨h2, h3⟩ : id ≠ 2 ∧ id ≠ 3 := by simpa using hid
    rw [lookup_annAlone, lookup_annAndBob, if_neg h3, if_neg h2]
  lsm := fun id hid => by
    obtain ⟨h2, h3⟩ : id ≠ 2 ∧ id ≠ 3 := by simpa using hid
    show annAlone.store.cache.lookup id = (annAndBob type).store.cache.lookup id
    rw [lookup_annAlone, lookup_annAndBob, if_neg h3, if_neg h2]
  others := fun id hid r hr => by
    have hr' : (annAlone.store.cache.lookup id).or (annAlone.store.cache.lookup id) = some r := hr
    have h1 : id ≠ 1 := by
      rintro rfl
      exact absurd hid (by decide)
    rw [Option.or_self, lookup_annAlone, if_neg h1] at hr'
    cases hr'
  others' := fun id hid r hr => by
    have hr' : ((annAndBob type).store.cache.lookup id).or ((annAndBob type).store.cache.lookup id) = some r := hr
    rw [Option.or_self, lookup_annAndBob] at hr'
    rcases (by simpa using hid : id = 2 ∨ id = 3) with rfl | rfl
    · cases hr'
      exact ⟨rfl, by decide⟩
    · cases hr'
      exact ⟨rfl, by decide⟩
  edges := fun id hid => by
    obtain ⟨-, h3⟩ : id ≠ 2 ∧ id ≠ 3 := by simpa using hid
    rw [getEdges_annAndBob ht, if_neg h3]
    rfl
  allEdges := by
    rw [getAllEdges_annAndBob ht]
    rfl
  index := rfl

theorem unaffected_annAlone : Unaffected byMeaning whereAnnLives [2, 3] annAlone [(1 : ℚ)] where
  room := .inl (by decide)
  neighbors := fun _ _ _ n hn => by cases hn
  supersedes := fun _ he => by cases he
  parents := fun _ he => by cases he

/-- An edge of another type stays out. -/
theorem unaffected_annAndBob : Unaffected byMeaning whereAnnLives [2, 3] (annAndBob .caused) [(1 : ℚ)] where
  room := .inl (by decide)
  neighbors := fun id r ha n hn => by
    have h3 : id ≠ 3 := by
      rintro rfl
      exact ha.1 (by decide)
    rw [GraphStore.getNeighbors, getEdges_annAndBob rfl, if_neg h3] at hn
    cases hn
  supersedes := fun e he => by
    rw [GraphStore.getSupersedes, getAllEdges_annAndBob rfl] at he
    cases he
  parents := fun e he => by
    rw [GraphStore.getSupersedes, getAllEdges_annAndBob rfl] at he
    cases he

end Retrieval
end Amind
