/-
# The shape of the graph

What holds of the graph whatever is done to it (`Shaped`): the count of active
nodes is right, the entry point is a node of the highest level, every node has a
list of neighbours for each layer up to its level, and a list at layer `l` is not
too long and names nodes whose level is at least `l`.

The last part carries the rest: a search of layer `l` that starts from nodes of
that layer finds only such (`atLayer_of_mem_searchLayer`), and these are what is
linked. Most steps only change lists of neighbours (`Rewired`). Compaction throws
the marked nodes away, draws new levels and links the rest again.
-/
import Mathlib.Data.Finset.Card
import Amind.Vector.Tiers

namespace Amind
namespace Vector

open Amind.Core

/-- The order in which a hash table is walked through. -/
structure Shuffle where
  toFun : List UInt64 → List UInt64
  perm : ∀ l, (toFun l).Perm l

/-- A node but for the names in its lists. -/
def Node.frame {F : Type} (n : Node F) : List F × ℤ × Bool × ℕ := (n.vector, n.level, n.deleted, n.connections.length)

namespace HNSWIndex

variable {F : Type}

/-! ### Compaction -/

section Compact

variable [Floats F] (x : HNSWIndex F)

/-- The ids and vectors that are not removed. -/
def survivors (order : Shuffle) : List (UInt64 × List F) :=
  (order.toFun x.nodes.keys).filterMap fun id =>
    (x.getNode id).bind fun n => if n.deleted then none else some (id, n.vector)

/-- Put a node with a new level, not linked yet. -/
def place (levels : UInt64 → ℕ) (x : HNSWIndex F) (s : UInt64 × List F) : HNSWIndex F :=
  let level := levels s.1
  let higher := x.maxLevel = -1 ∨ x.maxLevel < level
  { x with
    nodes := x.nodes.insert s.1 { vector := s.2, level := level, connections := List.replicate (level + 1) [] }
    activeCount := x.activeCount + 1
    maxLevel := if higher then level else x.maxLevel
    entryPointId := if higher then s.1 else x.entryPointId }

/-- Make a node a neighbour of one it has selected, if that has room. -/
def linkReverse (id : UInt64) (layer maxConn : ℕ) (x : HNSWIndex F) (neighborId : UInt64) : HNSWIndex F :=
  match x.getNode neighborId with
  | none => x
  | some n =>
    if layer < n.connections.length ∧ (n.connections.getD layer []).length < maxConn then
      x.modifyNode neighborId fun n =>
        { n with connections := n.connections.set layer (n.connections.getD layer [] ++ [id]) }
    else x

/-- Link a node in one layer, to what a search from the entry point finds. -/
def relinkLayer (id : UInt64) (vector : List F) (x : HNSWIndex F) (layer : ℕ) : HNSWIndex F :=
  let candidates := x.searchLayer vector (fun _ => true) x.config.efConstruction [x.entryPointId] layer
  let neighbors := x.selectNeighbors candidates (x.maxConnectionsForLayer layer)
  let x := x.modifyNode id fun n => { n with connections := n.connections.set layer neighbors }
  neighbors.foldl (linkReverse id layer (x.maxConnectionsForLayer layer)) x

def relink (x : HNSWIndex F) (id : UInt64) : HNSWIndex F :=
  match x.getNode id with
  | none => x
  | some n => (List.range (n.level + 1).toNat).foldl (relinkLayer id n.vector) x

/-- Throw the marked nodes away and link the others anew, each with the level it
draws. Without marked nodes nothing is done. `order` and `order'` are the orders
in which the nodes are walked through. -/
def compact (order order' : Shuffle) (levels : UInt64 → ℕ) : HNSWIndex F :=
  if x.nodes.keys.length - (x.survivors order).length = 0 then x
  else
    let placed := (x.survivors order).foldl (place levels)
      { x with nodes := ∅, entryPointId := 0, maxLevel := -1, activeCount := 0 }
    (order'.toFun placed.nodes.keys).foldl relink placed

end Compact

/-! ### Nodes of a layer -/

/-- The id has a node that reaches up to the layer. -/
def AtLayer (x : HNSWIndex F) (layer : ℕ) (id : UInt64) : Prop := ∃ n, x.getNode id = some n ∧ (layer : ℤ) ≤ n.level

/-- A list of neighbours that fits into the layer. -/
def Linkable (x : HNSWIndex F) (layer : ℕ) (conns : List UInt64) : Prop :=
  conns.length ≤ x.maxConnectionsForLayer layer ∧ ∀ id ∈ conns, x.AtLayer layer id

/-- Every list of neighbours fits into its layer. -/
def Linked (x : HNSWIndex F) : Prop :=
  ∀ id n, x.getNode id = some n → ∀ (layer : ℕ) conns, n.connections[layer]? = some conns → x.Linkable layer conns

variable {x x' x'' : HNSWIndex F} {id : UInt64} {layer : ℕ}

theorem AtLayer.mono {lo hi : ℕ} (h : x.AtLayer hi id) (hle : lo ≤ hi) : x.AtLayer lo id := by
  obtain ⟨n, hn, hl⟩ := h
  exact ⟨n, hn, by omega⟩

theorem Linked.neighbors (hx : x.Linked) {id' : UInt64} (h : id' ∈ x.neighbors id layer) : x.AtLayer layer id' := by
  unfold HNSWIndex.neighbors at h
  cases hn : x.getNode id with
  | none =>
    rw [hn] at h
    cases h
  | some n =>
    rw [hn, Option.map_some, Option.getD_some, List.getD_eq_getElem?_getD] at h
    cases hc : n.connections[layer]? with
    | none =>
      rw [hc] at h
      cases h
    | some conns =>
      rw [hc] at h
      exact (hx id n hn layer conns hc).2 id' h

section Search

variable [Floats F] {query : List F} {filter : UInt64 → Bool} {ef : ℕ}

theorem atLayer_greedyPass (hx : x.Linked) {lo : ℕ} (hlo : lo ≤ layer) {entry : UInt64 × F}
    (he : x.AtLayer lo entry.1) :
    x.AtLayer lo (x.greedyPass query layer entry).1.1 := by
  unfold greedyPass
  refine List.foldlRecOn (motive := fun best : (UInt64 × F) × Bool => x.AtLayer lo best.1.1) _ _ he ?_
  intro best hbest id hid
  split
  · split
    · exact hbest
    · split
      · exact (hx.neighbors hid).mono hlo
      · exact hbest
  · exact hbest

theorem atLayer_greedyLoop (hx : x.Linked) {lo : ℕ} (hlo : lo ≤ layer) : ∀ (passes : ℕ) (entry : UInt64 × F),
    x.AtLayer lo entry.1 → x.AtLayer lo (x.greedyLoop query layer passes entry)
  | 0, _, he => he
  | passes + 1, entry, he => by
    unfold greedyLoop
    split
    · exact atLayer_greedyLoop hx hlo passes _ (atLayer_greedyPass hx hlo he)
    · exact atLayer_greedyPass hx hlo he

/-- Descending greedily through layers from `lo` on stays with nodes of layer
`lo`. -/
theorem atLayer_descend (hx : x.Linked) {lo : ℕ} : ∀ (layers : List ℕ) (e : UInt64), (∀ l ∈ layers, lo ≤ l) →
    x.AtLayer lo e → x.AtLayer lo (layers.foldl (x.greedyClosest query) e)
  | [], _, _, he => he
  | l :: layers, e, hl, he => by
    refine atLayer_descend hx layers _ (fun l' hl' => hl l' (List.mem_cons_of_mem _ hl')) ?_
    unfold greedyClosest
    split
    · exact he
    · exact atLayer_greedyLoop hx (hl l List.mem_cons_self) _ _ he

/-- All the beam has are nodes of the layer. -/
def Beam.AtLayer (x : HNSWIndex F) (layer : ℕ) (b : Beam F) : Prop :=
  (∀ r ∈ b.candidateQueue, x.AtLayer layer r.id) ∧ ∀ r ∈ b.resultQueue, x.AtLayer layer r.id

theorem atLayer_push {r : SearchResult F} {l : List (SearchResult F)} (hr : x.AtLayer layer r.id)
    (hl : ∀ y ∈ l, x.AtLayer layer y.id) : ∀ y ∈ push r l, x.AtLayer layer y.id := by
  intro y hy
  rcases mem_push hy with rfl | hy
  · exact hr
  · exact hl y hy

variable {b : Beam F}

theorem Beam.AtLayer.enter (hb : b.AtLayer x layer) (hid : x.AtLayer layer id) :
    (x.enter query filter b id).AtLayer x layer := by
  unfold HNSWIndex.enter
  split
  · exact hb
  · refine ⟨atLayer_push hid hb.1, ?_⟩
    dsimp only
    split
    · exact atLayer_push hid hb.2
    · exact hb.2

theorem Beam.AtLayer.visit (hb : b.AtLayer x layer) (hid : x.AtLayer layer id) :
    (x.visit query filter ef b id).AtLayer x layer := by
  unfold HNSWIndex.visit
  split
  · exact hb
  · split
    · exact hb
    · rename_i n _
      have hpush : ∀ l : List (SearchResult F), (∀ y ∈ l, x.AtLayer layer y.id) →
          ∀ y ∈ push ⟨id, x.config.computeDistance query n.vector⟩ l, x.AtLayer layer y.id :=
        fun l hl => atLayer_push hid hl
      dsimp only
      split
      · split
        · refine ⟨hpush _ hb.1, fun r hr => hpush _ hb.2 r ?_⟩
          dsimp only at hr
          split at hr
          · exact List.mem_of_mem_dropLast hr
          · exact hr
        · exact ⟨hpush _ hb.1, hb.2⟩
      · exact hb

theorem Beam.AtLayer.expand (hx : x.Linked) : ∀ (steps : ℕ) (b : Beam F), b.AtLayer x layer →
    (x.expand query filter ef layer steps b).AtLayer x layer
  | 0, _, hb => hb
  | steps + 1, b, hb => by
    unfold HNSWIndex.expand
    split
    · exact hb
    · rename_i closest queue hq
      split
      · exact hb
      · refine Beam.AtLayer.expand hx steps _ (List.foldlRecOn (motive := fun b : Beam F => b.AtLayer x layer) _ _ ?_ ?_)
        · exact ⟨fun r hr => hb.1 r (hq ▸ List.mem_cons_of_mem _ hr), hb.2⟩
        · exact fun b hb id hid => hb.visit (hx.neighbors hid)

/-- **A search of a layer finds nodes of that layer.** -/
theorem atLayer_of_mem_searchLayer (hx : x.Linked) {entryPoints : List UInt64}
    (he : ∀ e ∈ entryPoints, x.AtLayer layer e) {r : SearchResult F}
    (h : r ∈ x.searchLayer query filter ef entryPoints layer) : x.AtLayer layer r.id := by
  refine (Beam.AtLayer.expand hx _ _ ?_).2 r h
  refine List.foldlRecOn (motive := fun b : Beam F => b.AtLayer x layer) _ _ ?_ fun b hb e hmem => hb.enter (he e hmem)
  exact ⟨fun r hr => absurd hr List.not_mem_nil, fun r hr => absurd hr List.not_mem_nil⟩

/-- What is selected from a search fits into the layer. -/
theorem linkable_selectNeighbors {candidates : List (SearchResult F)} (h : ∀ r ∈ candidates, x.AtLayer layer r.id) :
    x.Linkable layer (x.selectNeighbors candidates (x.maxConnectionsForLayer layer)) := by
  refine ⟨List.length_take_le _ _, fun id hid => ?_⟩
  have hmem := (List.mem_filter.mp (List.mem_of_mem_take hid)).1
  obtain ⟨r, hr, rfl⟩ := List.mem_map.mp hmem
  refine List.foldlRecOn (motive := fun sorted : List (SearchResult F) => ∀ y ∈ sorted, x.AtLayer layer y.id)
    candidates (fun sorted r => push r sorted) (fun y hy => absurd hy List.not_mem_nil) ?_ r hr
  exact fun sorted hs r hr => atLayer_push (h r hr) hs

end Search

/-! ### Changing lists of neighbours -/

/-- The second index differs from the first in lists of neighbours only. -/
structure Rewired (x x' : HNSWIndex F) : Prop where
  config : x'.config = x.config
  entryPointId : x'.entryPointId = x.entryPointId
  maxLevel : x'.maxLevel = x.maxLevel
  activeCount : x'.activeCount = x.activeCount
  frame : ∀ id, (x'.getNode id).map Node.frame = (x.getNode id).map Node.frame

theorem Rewired.refl (x : HNSWIndex F) : Rewired x x := ⟨rfl, rfl, rfl, rfl, fun _ => rfl⟩

theorem Rewired.trans (h : Rewired x x') (h' : Rewired x' x'') : Rewired x x'' :=
  ⟨h'.config.trans h.config, h'.entryPointId.trans h.entryPointId, h'.maxLevel.trans h.maxLevel,
    h'.activeCount.trans h.activeCount, fun id => (h'.frame id).trans (h.frame id)⟩

/-- A node of the second index has one of the same frame in the first. -/
theorem Rewired.node (h : Rewired x x') {n' : Node F} (hn : x'.getNode id = some n') :
    ∃ n, x.getNode id = some n ∧ n'.frame = n.frame := by
  have hf := h.frame id
  rw [hn, Option.map_some] at hf
  obtain ⟨n, hn, hfn⟩ := Option.map_eq_some_iff.mp hf.symm
  exact ⟨n, hn, hfn.symm⟩

theorem Rewired.node' (h : Rewired x x') {n : Node F} (hn : x.getNode id = some n) :
    ∃ n', x'.getNode id = some n' ∧ n'.frame = n.frame := by
  have hf := h.frame id
  rw [hn, Option.map_some] at hf
  exact Option.map_eq_some_iff.mp hf

theorem frame_level {n n' : Node F} (h : n'.frame = n.frame) : n'.level = n.level := congrArg (·.2.1) h

theorem Rewired.atLayer (h : Rewired x x') : x'.AtLayer layer id ↔ x.AtLayer layer id := by
  constructor
  · rintro ⟨n', hn', hl⟩
    obtain ⟨n, hn, hf⟩ := h.node hn'
    exact ⟨n, hn, frame_level hf ▸ hl⟩
  · rintro ⟨n, hn, hl⟩
    obtain ⟨n', hn', hf⟩ := h.node' hn
    exact ⟨n', hn', (frame_level hf).symm ▸ hl⟩

theorem Rewired.maxConnectionsForLayer (h : Rewired x x') :
    x'.maxConnectionsForLayer layer = x.maxConnectionsForLayer layer := by
  unfold HNSWIndex.maxConnectionsForLayer
  rw [h.config]

theorem Rewired.linkable (h : Rewired x x') {conns : List UInt64} :
    x'.Linkable layer conns ↔ x.Linkable layer conns := by
  unfold Linkable
  rw [h.maxConnectionsForLayer]
  exact and_congr_right fun _ => forall₂_congr fun _ _ => h.atLayer

theorem Rewired.mark (h : Rewired x x') (id : UInt64) : x'.mark id = x.mark id := by
  have hf := congrArg (Option.map (·.2.2.1)) (h.frame id)
  rwa [Option.map_map, Option.map_map] at hf

theorem getNode_modifyNode {id' : UInt64} (f : Node F → Node F) :
    (x.modifyNode id f).getNode id' = if id' = id then (x.getNode id).map f else x.getNode id' := by
  unfold modifyNode
  cases hn : x.getNode id with
  | none =>
    dsimp only
    split
    · rename_i h
      rw [h]
      exact hn
    · rfl
  | some n =>
    dsimp only
    unfold getNode
    split
    · rename_i h
      rw [h, AList.lookup_insert]
      rfl
    · rename_i h
      exact AList.lookup_insert_ne h

/-- Set the neighbours of a node in one layer. -/
def rewire (id : UInt64) (layer : ℕ) (conns : List UInt64) (x : HNSWIndex F) : HNSWIndex F :=
  x.modifyNode id fun n => { n with connections := n.connections.set layer conns }

theorem rewired_rewire {conns : List UInt64} : Rewired x (rewire id layer conns x) := by
  have hrest : (rewire id layer conns x).config = x.config ∧ (rewire id layer conns x).entryPointId = x.entryPointId ∧
      (rewire id layer conns x).maxLevel = x.maxLevel ∧ (rewire id layer conns x).activeCount = x.activeCount := by
    unfold rewire modifyNode
    split <;> exact ⟨rfl, rfl, rfl, rfl⟩
  refine ⟨hrest.1, hrest.2.1, hrest.2.2.1, hrest.2.2.2, fun id' => ?_⟩
  unfold rewire
  rw [getNode_modifyNode]
  split
  · rename_i h
    subst h
    cases x.getNode id' with
    | none => rfl
    | some n => simp [Node.frame]
  · rfl

/-- Setting a list that fits keeps all lists fitting. -/
theorem Linked.rewire (hx : x.Linked) {conns : List UInt64} (hc : x.Linkable layer conns) :
    (rewire id layer conns x).Linked := by
  intro id' n' hn' l c hl
  rw [rewired_rewire.linkable]
  unfold HNSWIndex.rewire at hn'
  rw [getNode_modifyNode] at hn'
  split at hn'
  · obtain ⟨n, hn, rfl⟩ := Option.map_eq_some_iff.mp hn'
    dsimp only at hl
    rw [List.getElem?_set] at hl
    split at hl
    · rename_i heq
      split at hl
      · rw [← heq, ← Option.some.inj hl]
        exact hc
      · cases hl
    · exact hx id n hn l c hl
  · exact hx id' n' hn' l c hl

/-- Steps that only change lists, one after the other. -/
theorem Linked.foldl {α : Type} {f : HNSWIndex F → α → HNSWIndex F} {l : List α} (hx : x.Linked)
    (hf : ∀ x', Rewired x x' → x'.Linked → ∀ a ∈ l, Rewired x' (f x' a) ∧ (f x' a).Linked) :
    Rewired x (l.foldl f x) ∧ (l.foldl f x).Linked := by
  refine List.foldlRecOn (motive := fun x' => Rewired x x' ∧ x'.Linked) l f ⟨.refl x, hx⟩ ?_
  rintro x' ⟨hr, hl⟩ a ha
  obtain ⟨hr', hl'⟩ := hf x' hr hl a ha
  exact ⟨hr.trans hr', hl'⟩

/-- Set the neighbours of a node and link them back. -/
theorem Linked.rewire_foldl {conns : List UInt64} {f : HNSWIndex F → UInt64 → HNSWIndex F} (hx : x.Linked)
    (hc : x.Linkable layer conns)
    (hf : ∀ x', Rewired x x' → x'.Linked → ∀ a ∈ conns, Rewired x' (f x' a) ∧ (f x' a).Linked) :
    Rewired x (conns.foldl f (HNSWIndex.rewire id layer conns x)) ∧
      (conns.foldl f (HNSWIndex.rewire id layer conns x)).Linked := by
  have hr : Rewired x (HNSWIndex.rewire id layer conns x) := rewired_rewire
  obtain ⟨hr', hl'⟩ := (hx.rewire hc).foldl fun x' hx' => hf x' (hr.trans hx')
  exact ⟨hr.trans hr', hl'⟩

/-- The list of a node in a layer it has. -/
theorem Linked.getD (hx : x.Linked) {n : Node F} (hn : x.getNode id = some n) (hl : layer < n.connections.length) :
    x.Linkable layer (n.connections.getD layer []) := by
  rw [List.getD_eq_getElem?_getD, List.getElem?_eq_getElem hl, Option.getD_some]
  exact hx id n hn layer _ (List.getElem?_eq_getElem hl)

section Links

variable [Floats F] {maxConn : ℕ}

theorem Linked.linkBack (hx : x.Linked) (hid : x.AtLayer layer id) (hmax : maxConn = x.maxConnectionsForLayer layer)
    (neighborId : UInt64) : Rewired x (linkBack id layer maxConn x neighborId) ∧
      (linkBack id layer maxConn x neighborId).Linked := by
  unfold HNSWIndex.linkBack
  split
  · exact ⟨.refl x, hx⟩
  · rename_i n hn
    split
    · exact ⟨.refl x, hx⟩
    · rename_i hnot
      have hold := hx.getD hn (not_le.mp (not_or.mp hnot).2)
      have hall : ∀ i ∈ n.connections.getD layer [] ++ [id], x.AtLayer layer i := by
        intro i hi
        rcases List.mem_append.mp hi with hi | hi
        · exact hold.2 i hi
        · exact List.mem_singleton.mp hi ▸ hid
      refine ⟨rewired_rewire, hx.rewire ?_⟩
      split
      · rw [hmax]
        refine linkable_selectNeighbors fun r hr => ?_
        obtain ⟨c, hc, hr⟩ := List.mem_filterMap.mp hr
        obtain ⟨m, -, hr⟩ := Option.bind_eq_some_iff.mp hr
        split at hr
        · cases hr
        · rw [← Option.some.inj hr]
          exact hall c hc
      · exact ⟨hmax ▸ not_lt.mp ‹_›, hall⟩

omit [Floats F] in
theorem Linked.linkReverse (hx : x.Linked) (hid : x.AtLayer layer id) (hmax : maxConn = x.maxConnectionsForLayer layer)
    (neighborId : UInt64) : Rewired x (linkReverse id layer maxConn x neighborId) ∧
      (linkReverse id layer maxConn x neighborId).Linked := by
  unfold HNSWIndex.linkReverse
  split
  · exact ⟨.refl x, hx⟩
  · rename_i n hn
    split
    · rename_i hroom
      have hold := hx.getD hn hroom.1
      have heq : x.modifyNode neighborId (fun n => { n with
          connections := n.connections.set layer (n.connections.getD layer [] ++ [id]) }) =
          HNSWIndex.rewire neighborId layer (n.connections.getD layer [] ++ [id]) x := by
        unfold HNSWIndex.rewire modifyNode
        rw [hn]
      rw [heq]
      refine ⟨rewired_rewire, hx.rewire ⟨?_, fun i hi => ?_⟩⟩
      · rw [List.length_append, List.length_singleton, ← hmax]
        exact hroom.2
      · rcases List.mem_append.mp hi with hi | hi
        · exact hold.2 i hi
        · exact List.mem_singleton.mp hi ▸ hid
    · exact ⟨.refl x, hx⟩

/-- The new node, if it is not there yet. -/
def withNode (id : UInt64) (newNode : Node F) (x : HNSWIndex F) : HNSWIndex F :=
  if (x.getNode id).isSome then x else { x with nodes := x.nodes.insert id newNode }

/-- What a search for the new node finds in a layer. -/
def layerCandidates (newNode : Node F) (st : HNSWIndex F × List UInt64) (layer : ℕ) : List (SearchResult F) :=
  st.1.searchLayer newNode.vector (fun _ => true) st.1.config.efConstruction st.2 layer

/-- The neighbours it gets there. -/
def layerSelected (newNode : Node F) (st : HNSWIndex F × List UInt64) (layer : ℕ) : List UInt64 :=
  st.1.selectNeighbors (layerCandidates newNode st layer) (st.1.maxConnectionsForLayer layer)

theorem insertLayer_eq (newNode : Node F) (st : HNSWIndex F × List UInt64) (layer : ℕ) :
    let y := HNSWIndex.rewire id layer (layerSelected newNode st layer) (withNode id newNode st.1)
    insertLayer id newNode st layer =
      ((layerSelected newNode st layer).foldl (linkBack id layer (y.maxConnectionsForLayer layer)) y,
        ((layerCandidates newNode st layer).map (·.id)).take (max 1 y.config.efConstruction)) := rfl

/-- Connecting the new node in a layer: what the search starts from and what it
finds are nodes of the layer. -/
theorem Linked.insertLayer {newNode : Node F} {s : HNSWIndex F × List UInt64} (hx : s.1.Linked)
    (he : ∀ e ∈ s.2, s.1.AtLayer layer e) (hnew : (withNode id newNode s.1).Linked)
    (hid : (withNode id newNode s.1).AtLayer layer id)
    (hgrow : ∀ i, s.1.AtLayer layer i → (withNode id newNode s.1).AtLayer layer i) :
    Rewired (withNode id newNode s.1) (insertLayer id newNode s layer).1 ∧ (insertLayer id newNode s layer).1.Linked ∧
      ∀ e ∈ (insertLayer id newNode s layer).2, s.1.AtLayer layer e := by
  have hfound : ∀ r ∈ layerCandidates newNode s layer, s.1.AtLayer layer r.id :=
    fun r hr => atLayer_of_mem_searchLayer hx he hr
  have hconfig : (withNode id newNode s.1).maxConnectionsForLayer layer = s.1.maxConnectionsForLayer layer := by
    unfold withNode
    split <;> rfl
  have hsel : (withNode id newNode s.1).Linkable layer (layerSelected newNode s layer) := by
    obtain ⟨hlen, hmem⟩ := linkable_selectNeighbors hfound
    exact ⟨hlen.trans_eq hconfig.symm, fun i hi => hgrow i (hmem i hi)⟩
  obtain ⟨hr, hl⟩ := hnew.rewire_foldl hsel fun x' hx' hlinked neighborId _ =>
    hlinked.linkBack (hx'.atLayer.mpr hid)
      (rewired_rewire.maxConnectionsForLayer.trans hx'.maxConnectionsForLayer.symm) neighborId
  refine ⟨hr, hl, fun e hmem => ?_⟩
  rw [insertLayer_eq] at hmem
  obtain ⟨r, hrmem, rfl⟩ := List.mem_map.mp (List.mem_of_mem_take hmem)
  exact hfound r hrmem

/-- Linking a node in a layer during compaction. -/
theorem Linked.relinkLayer (hx : x.Linked) (hid : x.AtLayer layer id) (hentry : x.AtLayer layer x.entryPointId)
    (vector : List F) : Rewired x (relinkLayer id vector x layer) ∧ (relinkLayer id vector x layer).Linked := by
  have hsel : x.Linkable layer (x.selectNeighbors (x.searchLayer vector (fun _ => true) x.config.efConstruction
      [x.entryPointId] layer) (x.maxConnectionsForLayer layer)) :=
    linkable_selectNeighbors fun r hr => atLayer_of_mem_searchLayer hx
      (fun e he => List.mem_singleton.mp he ▸ hentry) hr
  exact hx.rewire_foldl hsel fun x' hx' hlinked neighborId _ =>
    hlinked.linkReverse (hx'.atLayer.mpr hid)
      (rewired_rewire.maxConnectionsForLayer.trans hx'.maxConnectionsForLayer.symm) neighborId

/-- Linking a node in all its layers. -/
theorem Linked.relink (hx : x.Linked) (hentry : ∀ id n, x.getNode id = some n →
    ∃ e, x.getNode x.entryPointId = some e ∧ n.level ≤ e.level) (id : UInt64) :
    Rewired x (relink x id) ∧ (relink x id).Linked := by
  unfold HNSWIndex.relink
  split
  · exact ⟨.refl x, hx⟩
  · rename_i n hn
    obtain ⟨e, he, hle⟩ := hentry id n hn
    refine hx.foldl fun x' hr hl layer hlayer => ?_
    have hlayer : (layer : ℤ) ≤ n.level := by
      have := List.mem_range.mp hlayer
      omega
    refine hl.relinkLayer (hr.atLayer.mpr ⟨n, hn, hlayer⟩) (hr.atLayer.mpr ?_) n.vector
    rw [hr.entryPointId]
    exact ⟨e, he, hlayer.trans hle⟩

end Links

/-! ### The shape -/

/-- The ids in the index that are not removed. -/
def activeIds (x : HNSWIndex F) : Finset UInt64 := x.nodes.keys.toFinset.filter fun id => x.contains id = true

structure Shaped (x : HNSWIndex F) : Prop where
  active : x.activeCount = x.activeIds.card
  empty : x.nodes.keys = [] → x.maxLevel = -1
  entry : x.nodes.keys ≠ [] → ∃ e, x.getNode x.entryPointId = some e ∧ e.level = x.maxLevel
  levels : ∀ id n, x.getNode id = some n → 0 ≤ n.level ∧ n.level ≤ x.maxLevel
  lists : ∀ id n, x.getNode id = some n → (n.connections.length : ℤ) = n.level + 1
  linked : x.Linked
  vectors : ∀ id n, x.getNode id = some n → n.vector.length = x.config.dimension

theorem mem_activeIds : id ∈ x.activeIds ↔ x.contains id = true := by
  unfold activeIds
  rw [Finset.mem_filter, List.mem_toFinset]
  refine ⟨fun h => h.2, fun h => ⟨?_, h⟩⟩
  have hmark : x.mark id = some false := contains_iff.mp h
  obtain ⟨n, hn, -⟩ := Option.map_eq_some_iff.mp hmark
  exact AList.lookup_isSome.mp (Option.isSome_of_eq_some hn)

theorem keys_eq_nil_iff : x.nodes.keys = [] ↔ ∀ id, x.getNode id = none := by
  constructor
  · intro h id
    refine AList.lookup_eq_none.mpr fun hmem => ?_
    rw [AList.mem_keys, h] at hmem
    cases hmem
  · intro h
    refine List.eq_nil_iff_forall_not_mem.mpr fun id hmem => ?_
    exact AList.lookup_eq_none.mp (h id) (AList.mem_keys.mpr hmem)

theorem Shaped.rooted (hx : x.Shaped) : x.Rooted := by
  intro hkeys
  obtain ⟨e, he, hl⟩ := hx.entry hkeys
  rw [← hl]
  exact (hx.levels _ e he).1

/-- An index without nodes. -/
theorem shaped_new (config : HNSWConfig F) : ({ config := config } : HNSWIndex F).Shaped :=
  ⟨rfl, fun _ => rfl, fun h => absurd rfl h, nofun, nofun, nofun, nofun⟩

/-- Changing lists of neighbours that fit keeps the shape. -/
theorem Shaped.rewired (hx : x.Shaped) (hr : Rewired x x') (hl : x'.Linked) : x'.Shaped := by
  have hkeys : x'.nodes.keys = [] ↔ x.nodes.keys = [] := by
    rw [keys_eq_nil_iff, keys_eq_nil_iff]
    refine forall_congr' fun id => ?_
    rw [← Option.map_eq_none_iff (f := Node.frame), hr.frame, Option.map_eq_none_iff]
  refine ⟨?_, ?_, ?_, ?_, ?_, hl, ?_⟩
  · rw [hr.activeCount, hx.active]
    refine congrArg Finset.card (Finset.ext fun id => ?_)
    rw [mem_activeIds, mem_activeIds, contains_iff, contains_iff, hr.mark]
  · intro h
    rw [hr.maxLevel]
    exact hx.empty (hkeys.mp h)
  · intro h
    obtain ⟨e, he, hlevel⟩ := hx.entry (fun hn => h (hkeys.mpr hn))
    obtain ⟨e', he', hf⟩ := hr.node' he
    rw [hr.entryPointId, hr.maxLevel]
    exact ⟨e', he', (frame_level hf).trans hlevel⟩
  · intro id n' hn'
    obtain ⟨n, hn, hf⟩ := hr.node hn'
    rw [frame_level hf, hr.maxLevel]
    exact hx.levels id n hn
  · intro id n' hn'
    obtain ⟨n, hn, hf⟩ := hr.node hn'
    have hlen : n'.connections.length = n.connections.length := congrArg (·.2.2.2) hf
    rw [frame_level hf, hlen]
    exact hx.lists id n hn
  · intro id n' hn'
    obtain ⟨n, hn, hf⟩ := hr.node hn'
    have hvec : n'.vector = n.vector := congrArg (·.1) hf
    rw [hvec, hr.config]
    exact hx.vectors id n hn

/-- The index with a node put, and a count. -/
def setNode (x : HNSWIndex F) (id : UInt64) (n : Node F) (count : ℕ) : HNSWIndex F :=
  { x with nodes := x.nodes.insert id n, activeCount := count }

theorem getNode_setNode {n : Node F} {c : ℕ} {id' : UInt64} :
    (x.setNode id n c).getNode id' = if id' = id then some n else x.getNode id' := by
  unfold setNode getNode
  split
  · rename_i h
    rw [h]
    exact AList.lookup_insert _
  · rename_i h
    exact AList.lookup_insert_ne h

/-- Replacing the vector and the mark of a node keeps the shape, if the count is
right. -/
theorem Shaped.setNode (hx : x.Shaped) {n n' : Node F} {count : ℕ} (hn : x.getNode id = some n)
    (hlevel : n'.level = n.level) (hconns : n'.connections = n.connections)
    (hvec : n'.vector.length = x.config.dimension) (hcount : count = (x.setNode id n' count).activeIds.card) :
    (x.setNode id n' count).Shaped := by
  have hnodes : ∀ id' m, (x.setNode id n' count).getNode id' = some m →
      ∃ m', x.getNode id' = some m' ∧ m.level = m'.level ∧ m.connections = m'.connections := by
    intro id' m hm
    rw [getNode_setNode] at hm
    split at hm
    · rename_i heq
      rw [← Option.some.inj hm]
      exact ⟨n, heq ▸ hn, hlevel, hconns⟩
    · exact ⟨m, hm, rfl, rfl⟩
  have hkeys : (x.setNode id n' count).nodes.keys ≠ [] := by
    refine fun h => ?_
    have := keys_eq_nil_iff.mp h id
    rw [getNode_setNode, if_pos rfl] at this
    cases this
  have hat : ∀ l i, x.AtLayer l i → (x.setNode id n' count).AtLayer l i := by
    rintro l i ⟨m, hm, hl⟩
    by_cases heq : i = id
    · refine ⟨n', by rw [getNode_setNode, if_pos heq], ?_⟩
      rw [heq, hn] at hm
      rw [hlevel, Option.some.inj hm]
      exact hl
    · exact ⟨m, by rw [getNode_setNode, if_neg heq]; exact hm, hl⟩
  refine ⟨hcount, fun h => absurd h hkeys, fun _ => ?_, fun i m hm => ?_, fun i m hm => ?_, fun i m hm l c hc => ?_,
    fun i m hm => ?_⟩
  · obtain ⟨e, he, hl⟩ := hx.entry (keys_ne_nil hn)
    by_cases heq : x.entryPointId = id
    · refine ⟨n', ?_, ?_⟩
      · show (x.setNode id n' count).getNode x.entryPointId = some n'
        rw [getNode_setNode, if_pos heq]
      · rw [heq, hn] at he
        rw [hlevel, Option.some.inj he]
        exact hl
    · refine ⟨e, ?_, hl⟩
      show (x.setNode id n' count).getNode x.entryPointId = some e
      rw [getNode_setNode, if_neg heq]
      exact he
  · obtain ⟨m', hm', hl, -⟩ := hnodes i m hm
    rw [hl]
    exact hx.levels i m' hm'
  · obtain ⟨m', hm', hl, hc⟩ := hnodes i m hm
    rw [hl, hc]
    exact hx.lists i m' hm'
  · obtain ⟨m', hm', -, hconn⟩ := hnodes i m hm
    rw [hconn] at hc
    obtain ⟨hlen, hmem⟩ := hx.linked i m' hm' l c hc
    exact ⟨hlen, fun j hj => hat l j (hmem j hj)⟩
  · rw [getNode_setNode] at hm
    split at hm
    · rw [← Option.some.inj hm]
      exact hvec
    · exact hx.vectors i m hm

theorem contains_setNode {n : Node F} {c : ℕ} {id' : UInt64} :
    (x.setNode id n c).contains id' = true ↔ (id' = id ∧ n.deleted = false) ∨ (id' ≠ id ∧ x.contains id' = true) := by
  unfold contains
  rw [getNode_setNode]
  split
  · rename_i h
    simp [h]
  · rename_i h
    simp [h]

theorem Shaped.remove (hx : x.Shaped) (id : UInt64) : (x.remove id).Shaped := by
  unfold HNSWIndex.remove
  split
  · exact hx
  · rename_i n hn
    split
    · exact hx
    · rename_i hd
      refine hx.setNode hn rfl rfl (hx.vectors id n hn) ?_
      have hin : id ∈ x.activeIds := mem_activeIds.mpr ((contains_of_getNode hn).mpr (Bool.eq_false_iff.mpr hd))
      have herase : (x.setNode id { n with deleted := true } (x.activeCount - 1)).activeIds = x.activeIds.erase id := by
        refine Finset.ext fun i => ?_
        rw [mem_activeIds, contains_setNode, Finset.mem_erase, mem_activeIds]
        simp
      rw [herase, Finset.card_erase_of_mem hin, hx.active]

/-! ### New nodes -/

/-- A node that has no neighbours yet. -/
def freshNode (vector : List F) (level : ℕ) : Node F :=
  { vector := vector, level := level, connections := List.replicate (level + 1) [] }

/-- The index with a node that is not linked yet. -/
def addNode (x : HNSWIndex F) (id : UInt64) (vector : List F) (level : ℕ) : HNSWIndex F :=
  { x.setNode id (freshNode vector level) (x.activeCount + 1) with
    maxLevel := max x.maxLevel level
    entryPointId := if x.maxLevel < level then id else x.entryPointId }

theorem getNode_addNode {vector : List F} {level : ℕ} {id' : UInt64} :
    (x.addNode id vector level).getNode id' = if id' = id then some (freshNode vector level) else x.getNode id' :=
  getNode_setNode (c := x.activeCount + 1)

theorem atLayer_addNode (hnew : x.getNode id = none) {vector : List F} {level : ℕ} {id' : UInt64}
    (h : x.AtLayer layer id') : (x.addNode id vector level).AtLayer layer id' := by
  obtain ⟨n, hn, hl⟩ := h
  refine ⟨n, ?_, hl⟩
  rw [getNode_addNode, if_neg]
  · exact hn
  · rintro rfl
    rw [hnew] at hn
    cases hn

theorem Linked.addNode (hx : x.Linked) (hnew : x.getNode id = none) {vector : List F} {level : ℕ} :
    (x.addNode id vector level).Linked := by
  intro id' n hn l c hc
  rw [getNode_addNode] at hn
  split at hn
  · rw [← Option.some.inj hn] at hc
    have hnil : c = [] := List.eq_of_mem_replicate (List.mem_of_getElem? hc)
    rw [hnil]
    exact ⟨Nat.zero_le _, fun i hi => absurd hi List.not_mem_nil⟩
  · obtain ⟨hlen, hmem⟩ := hx id' n hn l c hc
    exact ⟨hlen, fun i hi => atLayer_addNode hnew (hmem i hi)⟩

theorem Shaped.addNode (hx : x.Shaped) (hnew : x.getNode id = none) {vector : List F} {level : ℕ}
    (hvec : vector.length = x.config.dimension) : (x.addNode id vector level).Shaped := by
  have hself : (x.addNode id vector level).getNode id = some (freshNode vector level) := by
    rw [getNode_addNode, if_pos rfl]
  have hother : ∀ i n, x.getNode i = some n → (x.addNode id vector level).getNode i = some n := by
    intro i n hn
    rw [getNode_addNode, if_neg]
    · exact hn
    · rintro rfl
      rw [hnew] at hn
      cases hn
  have hkeys : (x.addNode id vector level).nodes.keys ≠ [] := keys_ne_nil hself
  refine ⟨?_, fun h => absurd h hkeys, fun _ => ?_, fun i n hn => ?_, fun i n hn => ?_, hx.linked.addNode hnew,
    fun i n hn => ?_⟩
  · have hout : id ∉ x.activeIds := by
      rw [mem_activeIds, contains, hnew]
      exact Bool.false_ne_true
    have hinsert : (x.addNode id vector level).activeIds = Insert.insert id x.activeIds := by
      refine Finset.ext fun i => ?_
      rw [mem_activeIds, Finset.mem_insert, mem_activeIds]
      refine (contains_setNode (x := x) (c := x.activeCount + 1)).trans ?_
      by_cases h : i = id
      · simp [h, freshNode]
      · simp [h]
    rw [hinsert, Finset.card_insert_of_notMem hout, ← hx.active]
    rfl
  · show ∃ e, (x.addNode id vector level).getNode (if x.maxLevel < level then id else x.entryPointId) = some e ∧
      e.level = max x.maxLevel level
    split
    · rename_i hlt
      exact ⟨_, hself, (max_eq_right hlt.le).symm⟩
    · rename_i hge
      obtain ⟨e, he, hl⟩ := hx.entry fun h => hge (by rw [hx.empty h]; omega)
      exact ⟨e, hother _ e he, hl.trans (max_eq_left (not_lt.mp hge)).symm⟩
  · show 0 ≤ n.level ∧ n.level ≤ max x.maxLevel level
    rw [getNode_addNode] at hn
    split at hn
    · rw [← Option.some.inj hn]
      exact ⟨Int.natCast_nonneg level, le_max_right _ _⟩
    · obtain ⟨h0, hle⟩ := hx.levels i n hn
      exact ⟨h0, hle.trans (le_max_left _ _)⟩
  · rw [getNode_addNode] at hn
    split at hn
    · rw [← Option.some.inj hn]
      simp [freshNode]
    · exact hx.lists i n hn
  · rw [getNode_addNode] at hn
    split at hn
    · rw [← Option.some.inj hn]
      exact hvec
    · exact hx.vectors i n hn

section Insert

variable [Floats F] {vector : List F} {newLevel : ℕ}

/-- The layers below the first, where the node is there already. -/
theorem Linked.insertLayers {y : HNSWIndex F} {newNode : Node F} : ∀ (layers : List ℕ) (st : HNSWIndex F × List UInt64),
    Rewired y st.1 → st.1.Linked → (∀ l ∈ layers, y.AtLayer l id) → (∀ l ∈ layers, ∀ e ∈ st.2, st.1.AtLayer l e) →
    layers.Pairwise (· ≥ ·) → Rewired y (layers.foldl (HNSWIndex.insertLayer id newNode) st).1 ∧
      (layers.foldl (HNSWIndex.insertLayer id newNode) st).1.Linked
  | [], _, hr, hl, _, _, _ => ⟨hr, hl⟩
  | l :: layers, st, hr, hl, hid, he, hdown => by
    rw [List.pairwise_cons] at hdown
    have hself : st.1.AtLayer l id := hr.atLayer.mpr (hid l List.mem_cons_self)
    have hwith : withNode id newNode st.1 = st.1 := by
      obtain ⟨n, hn, -⟩ := hself
      unfold withNode
      rw [if_pos (Option.isSome_of_eq_some hn)]
    obtain ⟨hr', hl', he'⟩ := Linked.insertLayer hl (he l List.mem_cons_self)
      (hwith.symm ▸ hl) (hwith.symm ▸ hself) (fun i hi => hwith.symm ▸ hi)
    rw [hwith] at hr'
    refine Linked.insertLayers layers _ (hr.trans hr') hl' (fun l' hl' => hid l' (List.mem_cons_of_mem _ hl'))
      (fun l' hl' e hmem => ?_) hdown.2
    exact hr'.atLayer.mpr ((he' e hmem).mono (hdown.1 l' hl'))

omit [Floats F] in
theorem layersDown_spec {hi lo : ℤ} : (layersDown hi lo).Pairwise (· ≥ ·) ∧
    ∀ l ∈ layersDown hi lo, lo < (l : ℤ) ∧ (l : ℤ) ≤ hi := by
  unfold layersDown
  constructor
  · rw [List.pairwise_reverse]
    exact (List.pairwise_le_range.filter _)
  · intro l hl
    rw [List.mem_reverse, List.mem_filter, List.mem_range, decide_eq_true_eq] at hl
    omega

/-- The insertion of a new node into an index that has nodes, but for the entry
point and the counts. -/
theorem Shaped.insertLayers (hx : x.Shaped) (hnew : x.getNode id = none) (hkeys : x.nodes.keys ≠ []) :
    let entryId := (layersDown x.maxLevel newLevel).foldl (x.greedyClosest vector) x.entryPointId
    let x' := ((layersDown (min newLevel x.maxLevel) (-1)).foldl (insertLayer id (freshNode vector newLevel)) (x, [entryId])).1
    Rewired (x.setNode id (freshNode vector newLevel) x.activeCount) x' ∧ x'.Linked := by
  intro entryId x'
  obtain ⟨e, he, hlevel⟩ := hx.entry hkeys
  have hpos : 0 ≤ min (newLevel : ℤ) x.maxLevel := le_min (Int.natCast_nonneg _) (hx.rooted hkeys)
  obtain ⟨lo, hlo⟩ := Int.eq_ofNat_of_zero_le hpos
  have hentry : x.AtLayer lo entryId := by
    refine atLayer_descend hx.linked _ _ (fun l hl => ?_) ⟨e, he, ?_⟩
    · have := (layersDown_spec.2 l hl).1
      omega
    · rw [hlevel]
      omega
  have hy : (x.setNode id (freshNode vector newLevel) x.activeCount).Linked := hx.linked.addNode hnew
  have hself : ∀ l ∈ layersDown (min newLevel x.maxLevel) (-1),
      (x.setNode id (freshNode vector newLevel) x.activeCount).AtLayer l id := by
    intro l hl
    have := (layersDown_spec.2 l hl).2
    refine ⟨freshNode vector newLevel, by rw [getNode_setNode, if_pos rfl], ?_⟩
    show (l : ℤ) ≤ (newLevel : ℤ)
    omega
  have hat : ∀ l ∈ layersDown (min newLevel x.maxLevel) (-1), x.AtLayer l entryId := by
    intro l hl
    have := (layersDown_spec.2 l hl).2
    exact hentry.mono (by omega)
  have hdown : (layersDown (min newLevel x.maxLevel) (-1)).Pairwise (· ≥ ·) := layersDown_spec.1
  -- the first layer puts the node, the others find it there
  obtain ⟨first, layers, hlayers⟩ := List.exists_cons_of_ne_nil (layersDown_ne_nil hpos)
  rw [hlayers] at hself hat hdown
  have hwith : withNode id (freshNode vector newLevel) x = x.setNode id (freshNode vector newLevel) x.activeCount := by
    unfold withNode
    rw [hnew, if_neg (by simp)]
    rfl
  have hstart : ∀ e ∈ [entryId], x.AtLayer first e :=
    fun i hi => List.mem_singleton.mp hi ▸ hat first List.mem_cons_self
  obtain ⟨hr, hl, he'⟩ := Linked.insertLayer (s := (x, [entryId])) hx.linked hstart
    (hwith.symm ▸ hy) (hwith.symm ▸ hself first List.mem_cons_self)
    (fun i hi => by rw [hwith]; exact atLayer_addNode hnew hi)
  rw [hwith] at hr
  have hx' : x' = (layers.foldl (insertLayer id (freshNode vector newLevel))
      (insertLayer id (freshNode vector newLevel) (x, [entryId]) first)).1 := by
    show ((layersDown (min newLevel x.maxLevel) (-1)).foldl (insertLayer id (freshNode vector newLevel))
      (x, [entryId])).1 = _
    rw [hlayers]
    rfl
  rw [hx']
  rw [List.pairwise_cons] at hdown
  refine Linked.insertLayers layers _ hr hl (fun l hl => hself l (List.mem_cons_of_mem _ hl)) (fun l hl e hmem => ?_) hdown.2
  exact hr.atLayer.mpr (atLayer_addNode hnew ((he' e hmem).mono (hdown.1 l hl)))

theorem Shaped.insert (hx : x.Shaped) : (x.insert id vector newLevel).Shaped := by
  unfold HNSWIndex.insert
  split
  · exact hx
  · rename_i hdim
    have hdim := not_not.mp hdim
    split
    · rename_i n hn
      refine hx.setNode hn rfl rfl hdim ?_
      have hinsert : (x.setNode id { n with vector := vector, deleted := false }
          (if n.deleted then x.activeCount + 1 else x.activeCount)).activeIds = Insert.insert id x.activeIds := by
        refine Finset.ext fun i => ?_
        rw [mem_activeIds, contains_setNode, Finset.mem_insert, mem_activeIds]
        by_cases h : i = id
        · simp [h]
        · simp [h]
      rw [hinsert, hx.active]
      split
      · rename_i hd
        rw [Finset.card_insert_of_notMem]
        rw [mem_activeIds, contains_of_getNode hn, hd]
        exact Bool.noConfusion
      · rename_i hd
        rw [Finset.insert_eq_of_mem]
        exact mem_activeIds.mpr ((contains_of_getNode hn).mpr (Bool.eq_false_iff.mpr hd))
    · rename_i hnew
      have hadd : (x.addNode id vector newLevel).Shaped := hx.addNode hnew hdim
      dsimp only
      split
      · rename_i hkeys
        have hcount : x.activeCount = 0 := by
          rw [hx.active, Finset.card_eq_zero]
          refine Finset.eq_empty_of_forall_notMem fun i hi => ?_
          rw [mem_activeIds, contains, keys_eq_nil_iff.mp hkeys i] at hi
          cases hi
        have heq : x.addNode id vector newLevel =
            { x with nodes := x.nodes.insert id (freshNode vector newLevel), entryPointId := id, maxLevel := newLevel,
                     activeCount := 1 } := by
          have hmax := hx.empty hkeys
          unfold HNSWIndex.addNode HNSWIndex.setNode
          rw [hcount, if_pos (by omega), max_eq_right (by omega)]
        exact heq ▸ hadd
      · rename_i hkeys
        obtain ⟨hr, hl⟩ := hx.insertLayers hnew hkeys
        exact hadd.rewired ⟨hr.config, rfl, rfl, rfl, hr.frame⟩ hl

/-- An insertion gives the id its vector and changes the others' links only. -/
theorem Shaped.frame_insert (hx : x.Shaped) (hdim : vector.length = x.config.dimension) (id' : UInt64) :
    (id' ≠ id → ((x.insert id vector newLevel).getNode id').map Node.frame = (x.getNode id').map Node.frame) ∧
    (id' = id → ∃ n, (x.insert id vector newLevel).getNode id' = some n ∧ n.vector = vector ∧ n.deleted = false) := by
  unfold HNSWIndex.insert
  rw [if_neg (not_not.mpr hdim)]
  cases hn : x.getNode id with
  | some n =>
    have hget : ∀ i, (x.setNode id { n with vector := vector, deleted := false }
        (if n.deleted then x.activeCount + 1 else x.activeCount)).getNode i =
          if i = id then some { n with vector := vector, deleted := false } else x.getNode i := fun i => getNode_setNode
    exact ⟨fun hne => congrArg _ ((hget id').trans (if_neg hne)),
      fun heq => ⟨_, (hget id').trans (if_pos heq), rfl, rfl⟩⟩
  | none =>
    dsimp only
    by_cases hkeys : x.nodes.keys = []
    · rw [if_pos hkeys]
      have hget : ∀ i, (x.setNode id (freshNode vector newLevel) 1).getNode i =
          if i = id then some (freshNode vector newLevel) else x.getNode i := fun i => getNode_setNode
      exact ⟨fun hne => congrArg _ ((hget id').trans (if_neg hne)),
        fun heq => ⟨_, (hget id').trans (if_pos heq), rfl, rfl⟩⟩
    · rw [if_neg hkeys]
      obtain ⟨hr, -⟩ : Rewired (x.setNode id (freshNode vector newLevel) x.activeCount) _ ∧ _ :=
        hx.insertLayers hn hkeys
      have hframe := hr.frame id'
      rw [getNode_setNode] at hframe
      constructor
      · intro hne
        rw [if_neg hne] at hframe
        exact hframe
      · intro heq
        rw [if_pos heq] at hframe
        obtain ⟨n, hn', hf⟩ := Option.map_eq_some_iff.mp hframe
        exact ⟨n, hn', congrArg (·.1) hf, congrArg (·.2.2.1) hf⟩

end Insert

/-! ### Compaction keeps the shape -/

section Compaction

variable [Floats F] {levels : UInt64 → ℕ}

omit [Floats F] in
theorem Shaped.place_eq (hx : x.Shaped) (s : UInt64 × List F) : place levels x s = x.addNode s.1 s.2 (levels s.1) := by
  have hlow : -1 ≤ x.maxLevel := by
    by_cases hkeys : x.nodes.keys = []
    · rw [hx.empty hkeys]
    · have := hx.rooted hkeys
      omega
  have hiff : (x.maxLevel = -1 ∨ x.maxLevel < levels s.1) ↔ x.maxLevel < levels s.1 := by omega
  unfold place HNSWIndex.addNode HNSWIndex.setNode freshNode
  simp only [hiff]
  congr 1
  split
  · rename_i h
    exact (max_eq_right h.le).symm
  · rename_i h
    exact (max_eq_left (not_lt.mp h)).symm

omit [Floats F] in
/-- Nodes of new ids, put one after the other. -/
theorem Shaped.places : ∀ (l : List (UInt64 × List F)) (x : HNSWIndex F), x.Shaped → (l.map (·.1)).Nodup →
    (∀ s ∈ l, x.getNode s.1 = none) → (∀ s ∈ l, s.2.length = x.config.dimension) → (l.foldl (place levels) x).Shaped
  | [], _, hx, _, _, _ => hx
  | s :: l, x, hx, hnodup, hnew, hvec => by
    rw [List.map_cons, List.nodup_cons] at hnodup
    rw [List.foldl_cons, hx.place_eq]
    refine Shaped.places l _ (hx.addNode (hnew s List.mem_cons_self) (hvec s List.mem_cons_self)) hnodup.2
      (fun s' hs' => ?_) fun s' hs' => hvec s' (List.mem_cons_of_mem _ hs')
    rw [getNode_addNode, if_neg]
    · exact hnew s' (List.mem_cons_of_mem _ hs')
    · exact fun heq => hnodup.1 (List.mem_map.mpr ⟨s', hs', heq⟩)

omit [Floats F] in
theorem survivors_spec (order : Shuffle) : ((x.survivors order).map (·.1)).Nodup ∧
    ∀ s ∈ x.survivors order, ∃ n, x.getNode s.1 = some n ∧ s.2 = n.vector := by
  have hget : ∀ {id : UInt64} {s : UInt64 × List F},
      (x.getNode id).bind (fun n => if n.deleted then none else some (id, n.vector)) = some s →
        s.1 = id ∧ ∃ n, x.getNode id = some n ∧ s.2 = n.vector := by
    intro id s hs
    obtain ⟨n, hn, hs⟩ := Option.bind_eq_some_iff.mp hs
    split at hs
    · cases hs
    · rw [← Option.some.inj hs]
      exact ⟨rfl, n, hn, rfl⟩
  constructor
  · have hnodup : (order.toFun x.nodes.keys).Nodup := (order.perm _).nodup_iff.mpr x.nodes.nodupKeys
    refine hnodup.sublist ?_
    unfold survivors
    generalize order.toFun x.nodes.keys = l
    induction l with
    | nil => exact List.Sublist.slnil
    | cons id l ih =>
      rw [List.filterMap_cons]
      split
      · exact ih.cons _
      · rename_i s hs
        rw [List.map_cons, (hget hs).1]
        exact ih.cons_cons _
  · intro s hs
    obtain ⟨id, -, hs⟩ := List.mem_filterMap.mp hs
    obtain ⟨h, n, hn, hvec⟩ := hget hs
    exact ⟨n, h ▸ hn, hvec⟩

theorem Shaped.relinks (hx : x.Shaped) (ids : List UInt64) :
    Rewired x (ids.foldl relink x) ∧ (ids.foldl relink x).Linked := by
  refine hx.linked.foldl fun x' hr hl id _ => hl.relink (fun i n hn => ?_) id
  have hx' := hx.rewired hr hl
  obtain ⟨e, he, hlevel⟩ := hx'.entry (keys_ne_nil hn)
  exact ⟨e, he, hlevel ▸ (hx'.levels i n hn).2⟩

theorem Shaped.compact (hx : x.Shaped) (order order' : Shuffle) (levels : UInt64 → ℕ) :
    (x.compact order order' levels).Shaped := by
  unfold HNSWIndex.compact
  split
  · exact hx
  · obtain ⟨hnodup, hvec⟩ := survivors_spec (x := x) order
    have hplaced : ((x.survivors order).foldl (place levels) { config := x.config }).Shaped := by
      refine Shaped.places _ _ (shaped_new x.config) hnodup (fun _ _ => rfl) fun s hs => ?_
      obtain ⟨n, hn, h⟩ := hvec s hs
      rw [h]
      exact hx.vectors _ n hn
    obtain ⟨hr, hl⟩ := hplaced.relinks (order'.toFun ((x.survivors order).foldl (place levels)
      { x with nodes := ∅, entryPointId := 0, maxLevel := -1, activeCount := 0 }).nodes.keys)
    exact hplaced.rewired hr hl

end Compaction

end HNSWIndex

/-! ### Histories -/

namespace TieredIndex

open HNSWIndex

variable {F : Type} [Floats F] {x : TieredIndex F}

inductive Change (F : Type)
  | op (op : Op F)
  | compact (order order' : Shuffle) (levels : UInt64 → ℕ)

def change (x : TieredIndex F) : Change F → TieredIndex F
  | .op op => x.step op
  | .compact order order' levels => { x with hot := x.hot.compact order order' levels }

omit [Floats F] in
theorem shaped_relegates (hx : x.hot.Shaped) (ids : List UInt64) : (ids.foldl relegate x).hot.Shaped := by
  refine List.foldlRecOn (motive := fun x : TieredIndex F => x.hot.Shaped) ids relegate hx ?_
  intro x hx id _
  unfold relegate
  split
  · exact hx
  · split
    · exact hx
    · exact hx.remove id

theorem shaped_step (hx : x.hot.Shaped) (op : Op F) : (x.step op).hot.Shaped := by
  cases op with
  | insert id v l => exact hx.insert
  | remove id => exact hx.remove id
  | softDelete id => exact hx.remove id
  | relegateToCold ids =>
    show (x.relegateToCold ids).hot.Shaped
    unfold relegateToCold
    split
    · exact hx
    · exact shaped_relegates hx ids
  | evictCold =>
    show x.evictCold.hot.Shaped
    unfold evictCold
    split
    · exact hx
    · split
      · exact hx
      · exact shaped_relegates hx _

theorem shaped_change (hx : x.hot.Shaped) (c : Change F) : (x.change c).hot.Shaped := by
  cases c with
  | op op => exact shaped_step hx op
  | compact order order' levels => exact hx.compact order order' levels

theorem shaped_changes (cs : List (Change F)) (hx : x.hot.Shaped) : (Run.run change x cs).hot.Shaped :=
  Run.run_inv change (I := fun _ x => x.hot.Shaped) (C := fun _ _ => True) (fun _ _ c hi _ =>
    shaped_change hi c) cs [] _
    hx (Run.along_true _ _)

/-- **Whatever is done to a new index, the graph has its shape.** -/
theorem shaped_run (config : HNSWConfig F) (cold : Option (ColdTierIndex F)) (capacity : ℕ) (evictCount : ℕ → ℕ)
    (cs : List (Change F)) : (Run.run change ⟨{ config := config }, cold, capacity, evictCount⟩ cs).hot.Shaped :=
  shaped_changes cs (shaped_new config)

end TieredIndex
end Vector
end Amind
