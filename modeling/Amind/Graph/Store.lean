/-
# The graph store in memory

Edges in adjacency lists by their source, with a list of the sources of each
target beside them. An edge of an undirected type is stored under both ends.
`addEdgeInternal` is what an added edge does in memory, `dropNode` what the
removal of a node does; a replay of the log calls the same two.

The edges of a store are read through `view`, the weight and time of each edge
by its two ends and its type, which the two change as an overwriting patch
(`view_addEdgeInternal`, `view_dropNode`). `WellFormed` is what all stores keep:
an edge lies under its source, once for each target and type, is counted among
the sources of its target, and has its reverse if its type is undirected.
-/
import Mathlib.Data.List.AList
import Amind.Lib.Keyed
import Amind.Lib.Patch

namespace Amind
namespace Graph

/-- The type of an edge: any byte, eleven of them with a name. -/
inductive EdgeType
  | related
  | caused
  | contradicts
  | supersedes
  | derivedFrom
  | sameSession
  | corrects
  | prerequisite
  | temporal
  | entity
  | conflictsWith
  | unnamed (i : Fin 245)
  deriving DecidableEq, Repr

namespace EdgeType

def named : List EdgeType :=
  [.related, .caused, .contradicts, .supersedes, .derivedFrom, .sameSession, .corrects, .prerequisite,
    .temporal, .entity,
    .conflictsWith]

def toByte : EdgeType → UInt8
  | .related => 0
  | .caused => 1
  | .contradicts => 2
  | .supersedes => 3
  | .derivedFrom => 4
  | .sameSession => 5
  | .corrects => 6
  | .prerequisite => 7
  | .temporal => 8
  | .entity => 9
  | .conflictsWith => 10
  | .unnamed i => UInt8.ofNat (11 + i)

def ofByte (b : UInt8) : EdgeType :=
  if h : b.toNat < 11 then named.get ⟨b.toNat, h⟩ else .unnamed ⟨b.toNat - 11, by have := b.toNat_lt; omega⟩

/-- The types whose edges are stored under both ends. -/
def undirected : EdgeType → Bool
  | .related | .sameSession | .temporal | .entity => true
  | _ => false

@[simp] theorem ofByte_toByte (t : EdgeType) : ofByte t.toByte = t := by
  cases t with
  | unnamed i =>
    have hi : (UInt8.ofNat (11 + i)).toNat = 11 + i := by
      rw [UInt8.toNat_ofNat', Nat.mod_eq_of_lt (by omega)]
    have hge : ¬ (UInt8.ofNat (11 + i)).toNat < 11 := by omega
    rw [toByte, ofByte, dif_neg hge]
    exact congrArg _ (Fin.ext (by simp only [hi]; omega))
  | _ => rfl

end EdgeType

structure GraphEdge (F : Type) where
  fromId : UInt64
  toId : UInt64
  type : EdgeType
  weight : F
  createdAt : UInt32
  deriving DecidableEq, Repr

structure GraphStore (F : Type) where
  adjacency : AList (fun _ : UInt64 => List (GraphEdge F)) := ∅
  reverseAdj : AList (fun _ : UInt64 => List UInt64) := ∅

/-- What tells an edge from the others: its source, its target and its type. -/
structure EdgeKey where
  fromId : UInt64
  toId : UInt64
  type : EdgeType
  deriving DecidableEq, Repr

namespace EdgeKey

/-- The key of the edge the other way. -/
def flip (k : EdgeKey) : EdgeKey := ⟨k.toId, k.fromId, k.type⟩

@[simp] theorem flip_flip (k : EdgeKey) : k.flip.flip = k := rfl

end EdgeKey

/-- Ends and type of an edge. -/
def GraphEdge.key {F : Type} (e : GraphEdge F) : EdgeKey := ⟨e.fromId, e.toId, e.type⟩

namespace GraphStore

variable {F : Type} (g : GraphStore F)

/-- All edges from a memory. -/
def getEdges (id : UInt64) : List (GraphEdge F) := (g.adjacency.lookup id).getD []

/-- The sources listed for a target. -/
def sources (id : UInt64) : List UInt64 := (g.reverseAdj.lookup id).getD []

/-- Weight and time of the first edge of the type to the target, updated. -/
def updateEdge (dst : UInt64) (type : EdgeType) (weight : F) (createdAt : UInt32) :
    List (GraphEdge F) → Option (List (GraphEdge F))
  | [] => none
  | e :: es =>
    if e.toId = dst ∧ e.type = type then some ({ e with weight := weight, createdAt := createdAt } :: es)
    else (updateEdge dst type weight createdAt es).map (e :: ·)

/-- The edge in one direction: a duplicate is updated, a new one appended and its
source listed. -/
def addHalf (src dst : UInt64) (type : EdgeType) (weight : F) (createdAt : UInt32) : GraphStore F :=
  match updateEdge dst type weight createdAt (g.getEdges src) with
  | some edges => { g with adjacency := g.adjacency.insert src edges }
  | none =>
    { adjacency := g.adjacency.insert src (g.getEdges src ++ [⟨src, dst, type, weight, createdAt⟩])
      reverseAdj := g.reverseAdj.insert dst (g.sources dst ++ [src]) }

def addEdgeInternal (src dst : UInt64) (type : EdgeType) (weight : F) (createdAt : UInt32) : GraphStore F :=
  let g' := g.addHalf src dst type weight createdAt
  if type.undirected then g'.addHalf dst src type weight createdAt else g'

/-- The edges of one source to the node are erased. -/
def dropEdgesTo (id : UInt64) (g : GraphStore F) (src : UInt64) : GraphStore F :=
  match g.adjacency.lookup src with
  | none => g
  | some edges => { g with adjacency := g.adjacency.insert src (edges.filter fun e => e.toId ≠ id) }

/-- The lists of sources without the node. -/
def withoutSource (id : UInt64) (m : AList fun _ : UInt64 => List UInt64) : AList fun _ : UInt64 => List UInt64 :=
  ⟨m.entries.map (.map (fun a => a) fun _ srcs => srcs.filter (· ≠ id)), m.nodupKeys.map₂ _ _⟩

/-- All edges that involve a node are removed: its own, those of the sources
listed for it, and the node from the lists of sources. -/
def dropNode (id : UInt64) : GraphStore F :=
  let g' := (g.sources id).foldl (dropEdgesTo id) { g with adjacency := g.adjacency.erase id }
  { g' with reverseAdj := withoutSource id (g'.reverseAdj.erase id) }

/-- Weight and time of the first edge of the type to the target. -/
def lookupEdge (dst : UInt64) (type : EdgeType) (es : List (GraphEdge F)) : Option (F × UInt32) :=
  (es.find? fun e => e.toId = dst ∧ e.type = type).map fun e => (e.weight, e.createdAt)

/-- The edges of the store: weight and time by ends and type. -/
def view (k : EdgeKey) : Option (F × UInt32) := lookupEdge k.toId k.type (g.getEdges k.fromId)

/-- The stores have the same edges. -/
def SameEdges (g g' : GraphStore F) : Prop := ∀ id, (g.getEdges id).Perm (g'.getEdges id)

section Lists

variable {es es' : List (GraphEdge F)} {id dst : UInt64} {type : EdgeType} {weight : F} {createdAt : UInt32}

theorem lookupEdge_cons (e : GraphEdge F) (es : List (GraphEdge F)) (dst : UInt64) (type : EdgeType) :
    lookupEdge dst type (e :: es) =
      if e.toId = dst ∧ e.type = type then some (e.weight, e.createdAt) else lookupEdge dst type es := by
  by_cases h : e.toId = dst ∧ e.type = type
  · simp [lookupEdge, h]
  · rw [if_neg h, lookupEdge, List.find?_cons_of_neg (by simpa using h), lookupEdge]

/-- An update changes no ends and no type. -/
theorem map_key_updateEdge : ∀ {es es' : List (GraphEdge F)}, updateEdge dst type weight createdAt es = some es' →
    es'.map GraphEdge.key = es.map GraphEdge.key
  | [], _, h => by simp [updateEdge] at h
  | e :: es, es', h => by
    unfold updateEdge at h
    split at h
    · cases Option.some.inj h
      rfl
    · obtain ⟨tail, htail, rfl⟩ := Option.map_eq_some_iff.mp h
      rw [List.map_cons, List.map_cons, map_key_updateEdge htail]

theorem lookupEdge_updateEdge : ∀ {es es' : List (GraphEdge F)}, updateEdge dst type weight createdAt es = some es' →
    ∀ dst' type', lookupEdge dst' type' es' =
      if dst' = dst ∧ type' = type then some (weight, createdAt) else lookupEdge dst' type' es
  | [], _, h, _, _ => by simp [updateEdge] at h
  | e :: es, es', h, dst', type' => by
    unfold updateEdge at h
    split at h
    · rename_i he
      cases Option.some.inj h
      simp only [lookupEdge_cons, he.1, he.2]
      by_cases hk : dst = dst' ∧ type = type'
      · rw [if_pos hk, if_pos ⟨hk.1.symm, hk.2.symm⟩]
      · rw [if_neg hk, if_neg fun h => hk ⟨h.1.symm, h.2.symm⟩]
        simp [hk]
    · rename_i he
      obtain ⟨tail, htail, rfl⟩ := Option.map_eq_some_iff.mp h
      rw [lookupEdge_cons, lookupEdge_cons, lookupEdge_updateEdge htail]
      by_cases hk : dst' = dst ∧ type' = type
      · rw [if_pos hk, if_pos hk, hk.1, hk.2, if_neg he]
      · rw [if_neg hk, if_neg hk]

/-- Nothing to update: no edge of the type to the target. -/
theorem updateEdge_none : ∀ {es : List (GraphEdge F)}, updateEdge dst type weight createdAt es = none →
    ∀ e ∈ es, ¬ (e.toId = dst ∧ e.type = type)
  | [], _ => by simp
  | e :: es, h => by
    unfold updateEdge at h
    split at h
    · cases h
    · rename_i he
      have htail := updateEdge_none (Option.map_eq_none_iff.mp h)
      exact List.forall_mem_cons.mpr ⟨he, htail⟩

theorem lookupEdge_none_of (h : ∀ e ∈ es, ¬ (e.toId = dst ∧ e.type = type)) : lookupEdge dst type es = none := by
  rw [lookupEdge, List.find?_eq_none.mpr fun e he => by simpa using h e he]
  rfl

theorem lookupEdge_concat (h : ∀ e ∈ es, ¬ (e.toId = dst ∧ e.type = type)) {src : UInt64} (dst' : UInt64)
    (type' : EdgeType) : lookupEdge dst' type' (es ++ [⟨src, dst, type, weight, createdAt⟩]) =
      if dst' = dst ∧ type' = type then some (weight, createdAt) else lookupEdge dst' type' es := by
  by_cases hk : dst' = dst ∧ type' = type
  · obtain ⟨rfl, rfl⟩ := hk
    have hnone := lookupEdge_none_of h
    unfold lookupEdge at hnone ⊢
    rw [Option.map_eq_none_iff] at hnone
    rw [List.find?_append, hnone]
    simp
  · have hskip : ¬ (dst = dst' ∧ type = type') := fun h => hk ⟨h.1.symm, h.2.symm⟩
    rw [if_neg hk, lookupEdge, List.find?_append, List.find?_cons_of_neg (by simpa using hskip)]
    simp [lookupEdge]

theorem lookupEdge_filter (h : dst ≠ id) :
    lookupEdge dst type (es.filter fun e => e.toId ≠ id) = lookupEdge dst type es := by
  induction es with
  | nil => rfl
  | cons e es ih =>
    by_cases he : e.toId = id
    · rw [List.filter_cons_of_neg (by simpa using he), ih, lookupEdge_cons, if_neg fun hk => h (hk.1.symm.trans he)]
    · rw [List.filter_cons_of_pos (by simpa using he), lookupEdge_cons, lookupEdge_cons, ih]

/-- Among edges with different ends or types, each is the one that is found. -/
theorem lookupEdge_of_mem : ∀ {es : List (GraphEdge F)}, (es.map GraphEdge.key).Nodup → (∀ e ∈ es, e.fromId = id) →
    ∀ e ∈ es, lookupEdge e.toId e.type es = some (e.weight, e.createdAt)
  | e' :: es, hn, ho, e, he => by
    rw [List.map_cons, List.nodup_cons] at hn
    rw [lookupEdge_cons]
    rcases List.mem_cons.mp he with rfl | hmem
    · simp
    · have hne : ¬ (e'.toId = e.toId ∧ e'.type = e.type) := by
        intro hk
        have hfrom : e'.fromId = e.fromId := (ho e' List.mem_cons_self).trans (ho e he).symm
        have hkey : e'.key = e.key := by simp only [GraphEdge.key, hfrom, hk.1, hk.2]
        exact hn.1 (hkey ▸ List.mem_map_of_mem hmem)
      rw [if_neg hne]
      exact lookupEdge_of_mem hn.2 (fun x hx => ho x (List.mem_cons_of_mem _ hx)) e hmem

end Lists

/-! ### The two lists after an operation -/

@[simp] theorem getEdges_insert (id id' : UInt64) (es : List (GraphEdge F)) (r : AList fun _ : UInt64 => List UInt64) :
    getEdges ⟨g.adjacency.insert id es, r⟩ id' = if id' = id then es else g.getEdges id' := by
  by_cases h : id' = id
  · subst h
    simp [getEdges]
  · simp [getEdges, h]

theorem getEdges_addHalf (src dst : UInt64) (type : EdgeType) (weight : F) (createdAt : UInt32) (id : UInt64) :
    (g.addHalf src dst type weight createdAt).getEdges id =
      if id = src then (updateEdge dst type weight createdAt (g.getEdges src)).getD
        (g.getEdges src ++ [⟨src, dst, type, weight, createdAt⟩]) else g.getEdges id := by
  unfold addHalf
  cases updateEdge dst type weight createdAt (g.getEdges src) <;> exact getEdges_insert ..

theorem sources_addHalf (src dst : UInt64) (type : EdgeType) (weight : F) (createdAt : UInt32) (id : UInt64) :
    (g.addHalf src dst type weight createdAt).sources id =
      if (updateEdge dst type weight createdAt (g.getEdges src)).isNone ∧ id = dst then g.sources dst ++ [src]
      else g.sources id := by
  unfold addHalf
  cases updateEdge dst type weight createdAt (g.getEdges src) with
  | some es => simp [sources]
  | none =>
    by_cases h : id = dst
    · subst h
      simp [sources]
    · simp [sources, h]

theorem getEdges_dropEdgesTo (id src id' : UInt64) : (dropEdgesTo id g src).getEdges id' =
    if id' = src then (g.getEdges src).filter (fun e => e.toId ≠ id) else g.getEdges id' := by
  unfold dropEdgesTo
  cases hl : g.adjacency.lookup src with
  | some es =>
    have hes : g.getEdges src = es := by rw [getEdges, hl, Option.getD_some]
    rw [hes]
    exact getEdges_insert ..
  | none =>
    have hes : g.getEdges src = [] := by rw [getEdges, hl, Option.getD_none]
    by_cases h : id' = src
    · subst h
      simp [hes]
    · rw [if_neg h]

theorem reverseAdj_dropEdgesTo (id src : UInt64) : (dropEdgesTo id g src).reverseAdj = g.reverseAdj := by
  unfold dropEdgesTo
  split <;> rfl

theorem getEdges_foldl_dropEdgesTo (id id' : UInt64) : ∀ (srcs : List UInt64) (g : GraphStore F),
    (srcs.foldl (dropEdgesTo id) g).getEdges id' =
      if id' ∈ srcs then (g.getEdges id').filter (fun e => e.toId ≠ id) else g.getEdges id'
  | [], g => by simp
  | src :: srcs, g => by
    rw [List.foldl_cons, getEdges_foldl_dropEdgesTo id id' srcs, getEdges_dropEdgesTo]
    by_cases h : id' = src
    · subst h
      simp
    · simp [h]

theorem reverseAdj_foldl_dropEdgesTo (id : UInt64) (srcs : List UInt64) (g : GraphStore F) :
    (srcs.foldl (dropEdgesTo id) g).reverseAdj = g.reverseAdj :=
  List.foldlRecOn srcs _ (motive := fun x : GraphStore F => x.reverseAdj = g.reverseAdj) rfl
    fun x hx src _ => (reverseAdj_dropEdgesTo x id src).trans hx

theorem sources_dropNode (id id' : UInt64) :
    (g.dropNode id).sources id' = if id' = id then [] else (g.sources id').filter (· ≠ id) := by
  have hmap : (g.dropNode id).sources id' =
      (((g.reverseAdj.erase id).lookup id').map fun srcs => srcs.filter (· ≠ id)).getD [] := by
    unfold dropNode sources withoutSource
    dsimp only
    rw [reverseAdj_foldl_dropEdgesTo]
    exact congrArg (fun o : Option (List UInt64) => o.getD []) (List.dlookup_map₂ id')
  rw [hmap]
  by_cases h : id' = id
  · subst h
    simp
  · rw [if_neg h, AList.lookup_erase_ne h]
    unfold sources
    cases g.reverseAdj.lookup id' <;> rfl

/-- The edges of the other nodes, without those to the node itself. -/
theorem getEdges_dropNode {id : UInt64} (h : ∀ id', id' ∉ g.sources id → ∀ e ∈ g.getEdges id', e.toId ≠ id)
    (id' : UInt64) : (g.dropNode id).getEdges id' =
      if id' = id then [] else (g.getEdges id').filter fun e => e.toId ≠ id := by
  have herase : getEdges { g with adjacency := g.adjacency.erase id } id' =
      if id' = id then [] else g.getEdges id' := by
    by_cases hid : id' = id
    · subst hid
      simp [getEdges]
    · simp [getEdges, hid]
  show getEdges ((g.sources id).foldl (dropEdgesTo id) { g with adjacency := g.adjacency.erase id }) id' = _
  rw [getEdges_foldl_dropEdgesTo, herase]
  by_cases hid : id' = id
  · simp [hid]
  · rw [if_neg hid, if_neg hid]
    by_cases hsrc : id' ∈ g.sources id
    · rw [if_pos hsrc]
    · rw [if_neg hsrc]
      exact (List.filter_eq_self.mpr fun e he => by simpa using h id' hsrc e he).symm

/-! ### The edges after an operation -/

/-- What an added edge writes. -/
def addPatch (src dst : UInt64) (type : EdgeType) (weight : F) (createdAt : UInt32) :
    Patch EdgeKey (Option (F × UInt32)) := fun k =>
  if k = ⟨src, dst, type⟩ ∨ type.undirected ∧ k = ⟨dst, src, type⟩ then some (some (weight, createdAt)) else none

/-- What the removal of a node writes. -/
def dropPatch (F : Type) (id : UInt64) : Patch EdgeKey (Option (F × UInt32)) := fun k =>
  if k.fromId = id ∨ k.toId = id then some none else none

/-- Where the edges are kept. -/
structure Indexed : Prop where
  /-- An edge lies under its source. -/
  own : ∀ id, ∀ e ∈ g.getEdges id, e.fromId = id
  /-- Once for each target and type. -/
  unique : ∀ id, ((g.getEdges id).map GraphEdge.key).Nodup
  /-- A source is listed as often as it has edges to the target. -/
  counted : ∀ src dst, (g.sources dst).count src = ((g.getEdges src).map GraphEdge.key).countP (·.toId = dst)

/-- What all stores keep. -/
structure WellFormed : Prop extends g.Indexed where
  /-- An edge of an undirected type has its reverse. -/
  symm : ∀ k : EdgeKey, k.type.undirected = true → g.view k.flip = g.view k

variable {g}

theorem view_addHalf (src dst : UInt64) (type : EdgeType) (weight : F) (createdAt : UInt32) (k : EdgeKey) :
    (g.addHalf src dst type weight createdAt).view k =
      if k = ⟨src, dst, type⟩ then some (weight, createdAt) else g.view k := by
  have hkey : k = ⟨src, dst, type⟩ ↔ k.fromId = src ∧ k.toId = dst ∧ k.type = type := by
    cases k
    simp
  unfold view
  rw [getEdges_addHalf]
  by_cases hsrc : k.fromId = src
  · have hfind : lookupEdge k.toId k.type ((updateEdge dst type weight createdAt (g.getEdges src)).getD
        (g.getEdges src ++ [⟨src, dst, type, weight, createdAt⟩])) =
          if k.toId = dst ∧ k.type = type then some (weight, createdAt) else lookupEdge k.toId k.type (g.getEdges src) := by
      cases hu : updateEdge dst type weight createdAt (g.getEdges src) with
      | some es => exact lookupEdge_updateEdge hu _ _
      | none => exact lookupEdge_concat (updateEdge_none hu) _ _
    rw [if_pos hsrc, hfind]
    simp only [hkey, hsrc, true_and]
  · rw [if_neg hsrc, if_neg fun h => hsrc (hkey.mp h).1]

theorem view_addEdgeInternal (g : GraphStore F) (src dst : UInt64) (type : EdgeType) (weight : F) (createdAt : UInt32) :
    (g.addEdgeInternal src dst type weight createdAt).view = (addPatch src dst type weight createdAt).apply g.view := by
  funext k
  unfold addEdgeInternal Patch.apply addPatch
  dsimp only
  by_cases hu : type.undirected
  · rw [if_pos hu, view_addHalf, view_addHalf]
    by_cases h : k = ⟨src, dst, type⟩
    · simp [h]
    · by_cases h' : k = ⟨dst, src, type⟩ <;> simp [h, h', hu]
  · rw [if_neg hu, view_addHalf]
    by_cases h : k = ⟨src, dst, type⟩ <;> simp [h, hu]

/-- No edge from a node that is not listed. -/
theorem Indexed.toId_ne (h : g.Indexed) {id id' : UInt64} (hs : id' ∉ g.sources id) :
    ∀ e ∈ g.getEdges id', e.toId ≠ id := by
  have hzero : ((g.getEdges id').map GraphEdge.key).countP (·.toId = id) = 0 := by
    rw [← h.counted id' id, List.count_eq_zero.mpr hs]
  intro e he hid
  rw [List.countP_eq_zero] at hzero
  exact hzero e.key (List.mem_map_of_mem he) (decide_eq_true hid)

theorem view_dropNode (h : g.Indexed) (id : UInt64) : (g.dropNode id).view = (dropPatch F id).apply g.view := by
  funext k
  unfold view Patch.apply dropPatch
  rw [getEdges_dropNode g (fun id' => h.toId_ne)]
  by_cases hfrom : k.fromId = id
  · simp [hfrom, lookupEdge]
  · rw [if_neg hfrom]
    by_cases hto : k.toId = id
    · have hnone : lookupEdge k.toId k.type ((g.getEdges k.fromId).filter fun e => e.toId ≠ id) = none :=
        lookupEdge_none_of fun e he hk => by
          have hne : e.toId ≠ id := by simpa using (List.mem_filter.mp he).2
          exact hne (hk.1.trans hto)
      rw [hnone]
      simp [hto]
    · rw [lookupEdge_filter hto]
      simp [hfrom, hto]

/-- The edges under a node are those of the view with the node as their source. -/
theorem Indexed.mem_getEdges (h : g.Indexed) {id : UInt64} {e : GraphEdge F} :
    e ∈ g.getEdges id ↔ e.fromId = id ∧ g.view e.key = some (e.weight, e.createdAt) := by
  constructor
  · intro he
    have hid : e.fromId = id := h.own id e he
    refine ⟨hid, ?_⟩
    show lookupEdge e.toId e.type (g.getEdges e.fromId) = _
    rw [hid]
    exact lookupEdge_of_mem (h.unique id) (h.own id) e he
  · rintro ⟨rfl, hv⟩
    obtain ⟨e', hfind, hval⟩ := Option.map_eq_some_iff.mp hv
    have hmem := List.mem_of_find?_eq_some hfind
    have hk : e'.toId = e.toId ∧ e'.type = e.type := by
      have hp := List.find?_some hfind
      exact of_decide_eq_true hp
    have hfrom := h.own _ e' hmem
    have heq : e' = e := by
      obtain ⟨f', t', y', w', c'⟩ := e'
      obtain ⟨f, t, y, w, c⟩ := e
      simp only [Prod.mk.injEq] at hval hk hfrom
      obtain ⟨rfl, rfl⟩ := hval
      obtain ⟨rfl, rfl⟩ := hk
      rw [hfrom]
      rfl
    exact heq ▸ hmem

theorem Indexed.nodup (h : g.Indexed) (id : UInt64) : (g.getEdges id).Nodup := (h.unique id).of_map

/-- Two stores have the same edges if and only if their views are one. -/
theorem sameEdges_iff {g' : GraphStore F} (h : g.Indexed) (h' : g'.Indexed) :
    SameEdges g g' ↔ g.view = g'.view := by
  constructor
  · intro hs
    funext k
    have hmem : ∀ v, g.view k = some v ↔ g'.view k = some v := by
      intro v
      have he := (hs k.fromId).mem_iff (a := (⟨k.fromId, k.toId, k.type, v.1, v.2⟩ : GraphEdge F))
      rw [h.mem_getEdges, h'.mem_getEdges] at he
      simpa [GraphEdge.key] using he
    exact Option.ext hmem
  · intro hv id
    refine (List.perm_ext_iff_of_nodup (h.nodup id) (h'.nodup id)).mpr fun e => ?_
    rw [h.mem_getEdges, h'.mem_getEdges, hv]

/-! ### What the operations keep -/

theorem indexed_empty : Indexed (F := F) {} where
  own := by simp [getEdges]
  unique := by simp [getEdges]
  counted := by simp [getEdges, sources]

theorem Indexed.addHalf (h : g.Indexed) (src dst : UInt64) (type : EdgeType) (weight : F) (createdAt : UInt32) :
    (g.addHalf src dst type weight createdAt).Indexed := by
  cases hu : updateEdge dst type weight createdAt (g.getEdges src) with
  | some es =>
    -- an update: the ends are those that were there
    have hkey : ∀ id, ((g.addHalf src dst type weight createdAt).getEdges id).map GraphEdge.key =
        (g.getEdges id).map GraphEdge.key := by
      intro id
      rw [getEdges_addHalf, hu]
      by_cases hid : id = src
      · rw [if_pos hid, hid]
        exact map_key_updateEdge hu
      · rw [if_neg hid]
    refine ⟨fun id e he => ?_, fun id => by rw [hkey]; exact h.unique id, fun s d => ?_⟩
    · have hmem : e.key ∈ (g.getEdges id).map GraphEdge.key := hkey id ▸ List.mem_map_of_mem he
      obtain ⟨e', he', hk⟩ := List.mem_map.mp hmem
      exact (congrArg EdgeKey.fromId hk).symm.trans (h.own id e' he')
    · rw [hkey, sources_addHalf, hu]
      simpa using h.counted s d
  | none =>
    have hnew := updateEdge_none hu
    have hedges : ∀ id, (g.addHalf src dst type weight createdAt).getEdges id =
        if id = src then g.getEdges src ++ [⟨src, dst, type, weight, createdAt⟩] else g.getEdges id := by
      intro id
      rw [getEdges_addHalf, hu, Option.getD_none]
    refine ⟨fun id e he => ?_, fun id => ?_, fun s d => ?_⟩
    · rw [hedges] at he
      split at he
      · rename_i hid
        subst hid
        rcases List.mem_append.mp he with he | he
        · exact h.own _ e he
        · rw [List.mem_singleton.mp he]
      · exact h.own id e he
    · rw [hedges]
      split
      · rw [List.map_append, List.map_singleton]
        refine List.nodup_append.mpr ⟨h.unique src, List.nodup_singleton _, fun k hk k' hk' => ?_⟩
        obtain ⟨e, he, rfl⟩ := List.mem_map.mp hk
        rw [List.mem_singleton.mp hk']
        exact fun heq => hnew e he ⟨congrArg EdgeKey.toId heq, congrArg EdgeKey.type heq⟩
      · exact h.unique id
    · rw [hedges, sources_addHalf, hu]
      by_cases hs : s = src <;> by_cases hd : d = dst
      · subst hs hd
        simp [h.counted, GraphEdge.key]
      · have hd' : ¬ dst = d := fun h => hd h.symm
        subst hs
        simp [h.counted, GraphEdge.key, hd, hd']
      · have hs' : ¬ src = s := fun h => hs h.symm
        subst hd
        simp [h.counted, hs, hs']
      · simp [h.counted, hs, hd]

theorem Indexed.addEdgeInternal (h : g.Indexed) (src dst : UInt64) (type : EdgeType) (weight : F) (createdAt : UInt32) :
    (g.addEdgeInternal src dst type weight createdAt).Indexed := by
  unfold GraphStore.addEdgeInternal
  dsimp only
  split
  · exact (h.addHalf ..).addHalf ..
  · exact h.addHalf ..

theorem Indexed.dropNode (h : g.Indexed) (id : UInt64) : (g.dropNode id).Indexed := by
  have hedges := getEdges_dropNode g fun id' (hs : id' ∉ g.sources id) => h.toId_ne hs
  refine ⟨fun id' e he => ?_, fun id' => ?_, fun s d => ?_⟩
  · rw [hedges] at he
    split at he
    · cases he
    · exact h.own id' e (List.mem_filter.mp he).1
  · rw [hedges]
    split
    · exact List.nodup_nil
    · exact (h.unique id').sublist (List.filter_sublist.map _)
  · rw [hedges, sources_dropNode]
    by_cases hs : s = id
    · subst hs
      by_cases hd : d = s
      · simp [hd]
      · rw [if_neg hd, if_pos rfl, List.count_eq_zero.mpr (by simp)]
        rfl
    · rw [if_neg hs]
      by_cases hd : d = id
      · subst hd
        rw [if_pos rfl, List.count_nil, eq_comm, List.countP_eq_zero]
        intro k hk
        obtain ⟨e, he, rfl⟩ := List.mem_map.mp hk
        have hne : e.toId ≠ d := by simpa using (List.mem_filter.mp he).2
        exact fun hk => hne (of_decide_eq_true hk)
      · rw [if_neg hd, List.count_filter (by simpa using hs), h.counted]
        simp only [List.countP_map, List.countP_filter, GraphEdge.key, Function.comp_def]
        refine List.countP_congr fun e _ => ?_
        by_cases he : e.toId = d <;> simp [he, hd]

theorem wellFormed_empty : WellFormed (F := F) {} where
  toIndexed := indexed_empty
  symm := by simp [view, getEdges, lookupEdge]

theorem WellFormed.addEdgeInternal (h : g.WellFormed) (src dst : UInt64) (type : EdgeType) (weight : F)
    (createdAt : UInt32) : (g.addEdgeInternal src dst type weight createdAt).WellFormed where
  toIndexed := h.toIndexed.addEdgeInternal src dst type weight createdAt
  symm := by
    intro k hk
    have hflip : ∀ {k' : EdgeKey}, k.flip = k' ↔ k = k'.flip := by
      intro k'
      exact ⟨fun h => by rw [← h, EdgeKey.flip_flip], fun h => by rw [h, EdgeKey.flip_flip]⟩
    rw [view_addEdgeInternal]
    unfold Patch.apply addPatch
    simp only [hflip, h.symm k hk]
    by_cases hone : k = ⟨src, dst, type⟩
    · have hu : type.undirected := by rw [hone] at hk; exact hk
      simp [hone, hu, EdgeKey.flip]
    · by_cases hother : k = ⟨dst, src, type⟩
      · have hu : type.undirected := by rw [hother] at hk; exact hk
        simp [hother, hu, EdgeKey.flip]
      · have hone' : ¬ k = EdgeKey.flip ⟨src, dst, type⟩ := hother
        have hother' : ¬ k = EdgeKey.flip ⟨dst, src, type⟩ := hone
        simp [hone, hother, hone', hother']

theorem WellFormed.dropNode (h : g.WellFormed) (id : UInt64) : (g.dropNode id).WellFormed where
  toIndexed := h.toIndexed.dropNode id
  symm := by
    intro k hk
    rw [view_dropNode h.toIndexed]
    unfold Patch.apply dropPatch
    rw [h.symm k hk]
    by_cases hfrom : k.fromId = id <;> by_cases hto : k.toId = id <;> simp [EdgeKey.flip, hfrom, hto]

end GraphStore
end Graph
end Amind
