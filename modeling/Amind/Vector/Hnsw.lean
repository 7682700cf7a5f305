/-
# The vector index

A graph with layers: every node has a vector and, for each layer up to its
level, a list of neighbours. A search descends greedily from the entry point
to the lowest layer and goes on there with a beam of the nearest nodes.
Removing an id only marks its node: the search still walks through it, but
does not answer it. Inserting the id again clears the mark.

What a search answers are ids that are in the index and not marked
(`contains_of_mem_search`), and inserting and removing change which these are
as one expects (`contains_insert`, `contains_remove`).

The distance is a parameter, and so is the level a new node draws. The tier of
vectors on disk is left out.
-/
import Mathlib.Data.List.AList
import Mathlib.Data.List.Sort
import Amind.Core.MemoryRecord
import Amind.Lib.Keyed

namespace Amind
namespace Vector

open Amind.Core

structure SearchResult (F : Type) where
  id : UInt64
  distance : F

structure HNSWConfig (F : Type) where
  maxConnections : ℕ := 16
  maxConnectionsLayer0 : ℕ := 32
  efConstruction : ℕ := 200
  efSearch : ℕ := 50
  dimension : ℕ
  computeDistance : List F → List F → F

structure Node (F : Type) where
  vector : List F
  level : ℤ
  deleted : Bool := false
  connections : List (List UInt64)

structure HNSWIndex (F : Type) where
  config : HNSWConfig F
  nodes : AList fun _ : UInt64 => Node F := ∅
  entryPointId : UInt64 := 0
  maxLevel : ℤ := -1
  activeCount : ℕ := 0

namespace HNSWIndex

variable {F : Type} (x : HNSWIndex F)

def getNode (id : UInt64) : Option (Node F) := x.nodes.lookup id

def contains (id : UInt64) : Bool := (x.getNode id).any fun n => !n.deleted

def maxConnectionsForLayer (layer : ℕ) : ℕ :=
  if layer = 0 then x.config.maxConnectionsLayer0 else x.config.maxConnections

/-- The neighbours of a node in a layer. It has none above its level. -/
def neighbors (id : UInt64) (layer : ℕ) : List UInt64 :=
  ((x.getNode id).map fun n => n.connections.getD layer []).getD []

/-- The layers from `hi` down to the one above `lo`. -/
def layersDown (hi lo : ℤ) : List ℕ := ((List.range (hi + 1).toNat).filter fun l : ℕ => lo < (l : ℤ)).reverse

/-- Change a node that is there. -/
def modifyNode (id : UInt64) (f : Node F → Node F) : HNSWIndex F :=
  match x.getNode id with
  | some n => { x with nodes := x.nodes.insert id (f n) }
  | none => x

section Search

variable [Floats F] (query : List F)

/-! ### Descending greedily -/

/-- Walk over the neighbours of a node and keep the last that is closer than
the one kept before. -/
def greedyPass (layer : ℕ) (entry : UInt64 × F) : (UInt64 × F) × Bool :=
  (x.neighbors entry.1 layer).foldl
    (fun best id =>
      match x.getNode id with
      | some n =>
        if n.deleted then best
        else if x.config.computeDistance query n.vector < best.1.2 then
          ((id, x.config.computeDistance query n.vector), true)
        else best
      | none => best)
    (entry, false)

/-- Walk on as long as a node is closer. It is never the same one again, so as
many passes as there are nodes are enough. -/
def greedyLoop (layer : ℕ) : ℕ → UInt64 × F → UInt64
  | 0, entry => entry.1
  | passes + 1, entry =>
    if (x.greedyPass query layer entry).2 then greedyLoop layer passes (x.greedyPass query layer entry).1
    else (x.greedyPass query layer entry).1.1

def greedyClosest (entryId : UInt64) (layer : ℕ) : UInt64 :=
  match x.getNode entryId with
  | none => entryId
  | some n => x.greedyLoop query layer x.nodes.keys.length (entryId, x.config.computeDistance query n.vector)

/-! ### Searching a layer -/

/-- The beam: the nodes still to expand and the best found so far, both nearest
first, and the nodes seen. -/
structure Beam (F : Type) where
  candidateQueue : List (SearchResult F) := []
  resultQueue : List (SearchResult F) := []
  visited : List UInt64 := []

/-- Push into a queue that is kept nearest first. -/
def push (r : SearchResult F) : List (SearchResult F) → List (SearchResult F)
  | [] => [r]
  | y :: ys => if r.distance < y.distance then r :: y :: ys else y :: push r ys

variable (filter : UInt64 → Bool)

/-- Start from an entry point. A removed one is expanded but not answered. -/
def enter (b : Beam F) (entryId : UInt64) : Beam F :=
  match x.getNode entryId with
  | none => b
  | some n =>
    let r : SearchResult F := ⟨entryId, x.config.computeDistance query n.vector⟩
    { candidateQueue := push r b.candidateQueue
      resultQueue := if n.deleted = false ∧ filter entryId then push r b.resultQueue else b.resultQueue
      visited := entryId :: b.visited }

variable (ef : ℕ)

/-- Look at a neighbour of the node that is expanded. -/
def visit (b : Beam F) (id : UInt64) : Beam F :=
  if id ∈ b.visited then b
  else
    match x.getNode id with
    | none => { b with visited := id :: b.visited }
    | some n =>
      let r : SearchResult F := ⟨id, x.config.computeDistance query n.vector⟩
      if b.resultQueue.length < ef ∨ b.resultQueue.getLast?.any (r.distance < ·.distance) then
        if n.deleted = false ∧ filter id then
          let results := push r b.resultQueue
          { candidateQueue := push r b.candidateQueue
            resultQueue := if ef < results.length then results.dropLast else results
            visited := id :: b.visited }
        else { b with candidateQueue := push r b.candidateQueue, visited := id :: b.visited }
      else { b with visited := id :: b.visited }

/-- Expand the nearest candidates until the beam is nearer than all that are
left. -/
def expand (layer : ℕ) : ℕ → Beam F → Beam F
  | 0, b => b
  | steps + 1, b =>
    match b.candidateQueue with
    | [] => b
    | closest :: queue =>
      if b.resultQueue.getLast?.any (·.distance < closest.distance) ∧ ef ≤ b.resultQueue.length then b
      else expand layer steps
        ((x.neighbors closest.id layer).foldl (x.visit query filter ef) { b with candidateQueue := queue })

/-- Every node is expanded once at most, and every entry point. -/
def searchLayer (entryPoints : List UInt64) (layer : ℕ) : List (SearchResult F) :=
  (x.expand query filter ef layer (x.nodes.keys.length + entryPoints.length)
    (entryPoints.foldl (x.enter query filter) {})).resultQueue

variable (topK : ℕ)

def search : List (SearchResult F) :=
  if query.length ≠ x.config.dimension then []
  else if x.nodes.keys = [] ∨ x.activeCount = 0 then []
  else
    let entryId := (layersDown x.maxLevel 0).foldl (x.greedyClosest query) x.entryPointId
    (x.searchLayer query (fun _ => true) (max topK x.config.efSearch) [entryId] 0).take topK

end Search

/-! ### Changing the index -/

section Change

variable [Floats F]

/-- The nearest of the candidates that are in the index. -/
def selectNeighbors (candidates : List (SearchResult F)) (maxConnections : ℕ) : List UInt64 :=
  (((candidates.foldl (fun sorted r => push r sorted) []).map (·.id)).filter x.contains).take maxConnections

/-- Make the new node a neighbour of one it has selected, which gives up the
farthest if it has too many then. -/
def linkBack (id : UInt64) (layer maxConn : ℕ) (x : HNSWIndex F) (neighborId : UInt64) : HNSWIndex F :=
  match x.getNode neighborId with
  | none => x
  | some n =>
    if n.deleted ∨ n.connections.length ≤ layer then x
    else
      let conns := n.connections.getD layer [] ++ [id]
      let pruningCandidates := conns.filterMap fun c =>
        (x.getNode c).bind fun m =>
          if m.deleted then none else some ⟨c, x.config.computeDistance n.vector m.vector⟩
      let conns := if maxConn < conns.length then x.selectNeighbors pruningCandidates maxConn else conns
      x.modifyNode neighborId fun n => { n with connections := n.connections.set layer conns }

/-- Connect the new node in one layer. `entryPoints` are those of the search
there; the search of the next layer starts from what this one finds. -/
def insertLayer (id : UInt64) (newNode : Node F) (st : HNSWIndex F × List UInt64) (layer : ℕ) :
    HNSWIndex F × List UInt64 :=
  let x := st.1
  let candidates := x.searchLayer newNode.vector (fun _ => true) x.config.efConstruction st.2 layer
  let selected := x.selectNeighbors candidates (x.maxConnectionsForLayer layer)
  let x := if (x.getNode id).isSome then x else { x with nodes := x.nodes.insert id newNode }
  let x := x.modifyNode id fun n => { n with connections := n.connections.set layer selected }
  (selected.foldl (linkBack id layer (x.maxConnectionsForLayer layer)) x,
    (candidates.map (·.id)).take (max 1 x.config.efConstruction))

/-- Insert a vector, or replace the one of an id that is there. `newLevel` is
the level a new node draws. -/
def insert (id : UInt64) (vector : List F) (newLevel : ℕ) : HNSWIndex F :=
  if vector.length ≠ x.config.dimension then x
  else
    match x.getNode id with
    | some n =>
      { x with
        nodes := x.nodes.insert id { n with vector := vector, deleted := false }
        activeCount := if n.deleted then x.activeCount + 1 else x.activeCount }
    | none =>
      let newNode : Node F := { vector := vector, level := newLevel, connections := List.replicate (newLevel + 1) [] }
      if x.nodes.keys = [] then
        { x with
          nodes := x.nodes.insert id newNode
          entryPointId := id
          maxLevel := newLevel
          activeCount := 1 }
      else
        let entryId := (layersDown x.maxLevel newLevel).foldl (x.greedyClosest vector) x.entryPointId
        let x' := ((layersDown (min newLevel x.maxLevel) (-1)).foldl (insertLayer id newNode) (x, [entryId])).1
        { x' with
          entryPointId := if x.maxLevel < newLevel then id else x.entryPointId
          maxLevel := max x.maxLevel newLevel
          activeCount := x.activeCount + 1 }

/-- Mark an id removed. -/
def remove (id : UInt64) : HNSWIndex F :=
  match x.getNode id with
  | none => x
  | some n =>
    if n.deleted then x
    else { x with nodes := x.nodes.insert id { n with deleted := true }, activeCount := x.activeCount - 1 }

def softDelete (id : UInt64) : HNSWIndex F := x.remove id

end Change

variable {x}

theorem contains_of_getNode {id : UInt64} {n : Node F} (h : x.getNode id = some n) :
    x.contains id = true ↔ n.deleted = false := by
  rw [contains, h, Option.any_some, Bool.not_eq_true']

/-! ### What a search answers -/

section Answers

variable [Floats F] {query : List F} {filter : UInt64 → Bool} {ef layer : ℕ}

theorem mem_push {r y : SearchResult F} {l : List (SearchResult F)} (h : y ∈ push r l) : y = r ∨ y ∈ l := by
  induction l with
  | nil => exact .inl (List.mem_singleton.mp h)
  | cons z l ih =>
    unfold push at h
    split at h
    · exact List.mem_cons.mp h
    · rcases List.mem_cons.mp h with h | h
      · exact .inr (h ▸ List.mem_cons_self)
      · exact (ih h).imp_right (List.mem_cons_of_mem _)

/-- What the beam has found is in the index and passes the filter. -/
def Beam.Sound (x : HNSWIndex F) (filter : UInt64 → Bool) (b : Beam F) : Prop :=
  ∀ r ∈ b.resultQueue, x.contains r.id = true ∧ filter r.id = true

variable {b : Beam F}

theorem Beam.Sound.enter (h : b.Sound x filter) (id : UInt64) : (x.enter query filter b id).Sound x filter := by
  unfold HNSWIndex.enter
  split
  · exact h
  · rename_i n hn
    intro r hr
    dsimp only at hr
    split at hr
    · rename_i hpass
      rcases mem_push hr with rfl | hr
      · exact ⟨(contains_of_getNode hn).mpr hpass.1, hpass.2⟩
      · exact h r hr
    · exact h r hr

theorem Beam.Sound.visit (h : b.Sound x filter) (id : UInt64) : (x.visit query filter ef b id).Sound x filter := by
  unfold HNSWIndex.visit
  split
  · exact h
  · split
    · exact h
    · rename_i n hn
      dsimp only
      split
      · split
        · rename_i hpass
          -- the neighbour joins the beam, and the farthest may leave it
          intro r hr
          have hr : r ∈ push ⟨id, x.config.computeDistance query n.vector⟩ b.resultQueue := by
            dsimp only at hr
            split at hr
            · exact List.mem_of_mem_dropLast hr
            · exact hr
          rcases mem_push hr with rfl | hr
          · exact ⟨(contains_of_getNode hn).mpr hpass.1, hpass.2⟩
          · exact h r hr
        · exact h
      · exact h

omit [Floats F] in
theorem Beam.Sound.foldl {α : Type} {f : Beam F → α → Beam F} (hf : ∀ b a, b.Sound x filter → (f b a).Sound x filter) :
    ∀ (l : List α) (b : Beam F), b.Sound x filter → (l.foldl f b).Sound x filter
  | [], _, h => h
  | a :: l, b, h => Beam.Sound.foldl hf l (f b a) (hf b a h)

theorem Beam.Sound.expand : ∀ (steps : ℕ) (b : Beam F), b.Sound x filter →
    (x.expand query filter ef layer steps b).Sound x filter
  | 0, _, h => h
  | steps + 1, b, h => by
    unfold HNSWIndex.expand
    split
    · exact h
    · rename_i closest queue _
      split
      · exact h
      · have hqueue : Beam.Sound x filter { b with candidateQueue := queue } := h
        exact Beam.Sound.expand steps _ (Beam.Sound.foldl (fun b id hb => hb.visit id) _ _ hqueue)

theorem mem_searchLayer {entryPoints : List UInt64} {r : SearchResult F}
    (h : r ∈ x.searchLayer query filter ef entryPoints layer) : x.contains r.id = true ∧ filter r.id = true := by
  have hentered : (entryPoints.foldl (x.enter query filter) {}).Sound x filter :=
    Beam.Sound.foldl (fun b id hb => hb.enter id) _ _ fun r hr => absurd hr List.not_mem_nil
  exact Beam.Sound.expand _ _ hentered r h

/-- **A search answers ids that are in the index and not removed.** -/
theorem contains_of_mem_search {topK : ℕ} {r : SearchResult F} (h : r ∈ x.search query topK) :
    x.contains r.id = true := by
  unfold search at h
  split at h
  · cases h
  · split at h
    · cases h
    · exact (mem_searchLayer (List.mem_of_mem_take h)).1

end Answers

/-! ### What changes -/

section Marks

variable {id id' : UInt64}

/-- Whether an id is there, and marked. -/
def mark (x : HNSWIndex F) (id : UInt64) : Option Bool := (x.getNode id).map (·.deleted)

theorem contains_iff : x.contains id = true ↔ x.mark id = some false := by
  unfold contains mark
  cases x.getNode id with
  | none => simp
  | some n => simp

theorem mark_insertNode (n : Node F) :
    ({ x with nodes := x.nodes.insert id n } : HNSWIndex F).mark id' =
      if id' = id then some n.deleted else x.mark id' := by
  unfold mark getNode
  by_cases h : id' = id
  · subst h
    simp
  · simp [h, AList.lookup_insert_ne h]

theorem mark_modifyNode {f : Node F → Node F} (hf : ∀ n, (f n).deleted = n.deleted) :
    (x.modifyNode id f).mark id' = x.mark id' := by
  unfold modifyNode
  split
  · rename_i n hn
    rw [mark_insertNode]
    split
    · rename_i h
      subst h
      rw [mark, hn, hf]
      rfl
    · rfl
  · rfl

theorem keys_ne_nil {n : Node F} (h : x.getNode id = some n) : x.nodes.keys ≠ [] :=
  List.ne_nil_of_mem (AList.lookup_isSome.mp (Option.isSome_of_eq_some h))

/-- The index has an entry point to insert from if it has nodes at all. -/
def Rooted (x : HNSWIndex F) : Prop := x.nodes.keys ≠ [] → 0 ≤ x.maxLevel

theorem mark_remove : (x.remove id).mark id' = if id' = id then (x.mark id).map fun _ => true else x.mark id' := by
  unfold remove
  split
  · rename_i hn
    split
    · rename_i h
      subst h
      rw [mark, hn]
      rfl
    · rfl
  · rename_i n hn
    split
    · rename_i hd
      split
      · rename_i h
        subst h
        rw [mark, hn, Option.map_some, hd]
        rfl
      · rfl
    · have hmark : x.mark id = some n.deleted := by rw [mark, hn]; rfl
      rw [hmark]
      exact mark_insertNode _

theorem contains_remove : (x.remove id).contains id' = true ↔ id' ≠ id ∧ x.contains id' = true := by
  rw [contains_iff, contains_iff, mark_remove]
  split
  · rename_i h
    cases x.mark id <;> simp [h]
  · rename_i h
    simp [h]

theorem Rooted.remove (hx : x.Rooted) : (x.remove id).Rooted := by
  unfold HNSWIndex.remove
  split
  · exact hx
  · rename_i n hn
    split
    · exact hx
    · exact fun _ => hx (keys_ne_nil hn)

theorem config_modifyNode (f : Node F → Node F) : (x.modifyNode id f).config = x.config := by
  unfold modifyNode
  split <;> rfl

theorem config_remove : (x.remove id).config = x.config := by
  unfold remove
  split
  · rfl
  · split <;> rfl

variable [Floats F]

theorem config_linkBacks {layer maxConn : ℕ} : ∀ (l : List UInt64) (x : HNSWIndex F),
    (l.foldl (linkBack id layer maxConn) x).config = x.config
  | [], _ => rfl
  | i :: l, x => by
    refine (config_linkBacks l _).trans ?_
    unfold linkBack
    split
    · rfl
    · split
      · rfl
      · exact config_modifyNode _

theorem config_insertLayers {newNode : Node F} : ∀ (layers : List ℕ) (st : HNSWIndex F × List UInt64),
    (layers.foldl (insertLayer id newNode) st).1.config = st.1.config
  | [], _ => rfl
  | layer :: layers, st => by
    refine (config_insertLayers layers _).trans ?_
    unfold insertLayer
    dsimp only
    rw [config_linkBacks, config_modifyNode]
    split <;> rfl

theorem config_insert {vector : List F} {newLevel : ℕ} : (x.insert id vector newLevel).config = x.config := by
  unfold insert
  split
  · rfl
  · split
    · rfl
    · split
      · rfl
      · exact config_insertLayers _ _

theorem mark_linkBack {layer maxConn : ℕ} (neighborId : UInt64) :
    (linkBack id layer maxConn x neighborId).mark id' = x.mark id' := by
  unfold linkBack
  split
  · rfl
  · split
    · rfl
    · exact mark_modifyNode fun _ => rfl

theorem mark_linkBacks {layer maxConn : ℕ} : ∀ (l : List UInt64) (x : HNSWIndex F),
    (l.foldl (linkBack id layer maxConn) x).mark id' = x.mark id'
  | [], _ => rfl
  | i :: l, _ => (mark_linkBacks l _).trans (mark_linkBack i)

theorem mark_insertLayer {newNode : Node F} (st : HNSWIndex F × List UInt64) (layer : ℕ) :
    (insertLayer id newNode st layer).1.mark id' =
      if id' = id ∧ st.1.mark id = none then some newNode.deleted else st.1.mark id' := by
  unfold insertLayer
  dsimp only
  rw [mark_linkBacks, mark_modifyNode (f := fun n => { n with connections := n.connections.set layer _ })
    fun _ => rfl]
  cases hn : st.1.getNode id with
  | some n => simp [mark, hn]
  | none =>
    rw [Option.isSome_none, if_neg Bool.false_ne_true, mark_insertNode]
    simp [mark, hn]

theorem mark_insertLayers {newNode : Node F} : ∀ (layers : List ℕ) (st : HNSWIndex F × List UInt64),
    (layers.foldl (insertLayer id newNode) st).1.mark id' =
      if id' = id ∧ st.1.mark id = none ∧ layers ≠ [] then some newNode.deleted else st.1.mark id'
  | [], st => by simp
  | layer :: layers, st => by
    rw [List.foldl_cons, mark_insertLayers layers, mark_insertLayer, mark_insertLayer]
    by_cases hid : id' = id
    · subst hid
      by_cases hn : st.1.mark id' = none
      · simp [hn]
      · simp [hn]
    · simp [hid]

theorem layersDown_ne_nil {hi : ℤ} (h : 0 ≤ hi) : layersDown hi (-1) ≠ [] := by
  have hmem : 0 ∈ layersDown hi (-1) := by
    unfold layersDown
    simp only [List.mem_reverse, List.mem_filter, List.mem_range, decide_eq_true_eq]
    omega
  exact List.ne_nil_of_mem hmem

theorem mark_insert (hx : x.Rooted) {vector : List F} {newLevel : ℕ} :
    (x.insert id vector newLevel).mark id' =
      if id' = id ∧ vector.length = x.config.dimension then some false else x.mark id' := by
  unfold insert
  by_cases hdim : vector.length = x.config.dimension
  · rw [if_neg (not_not.mpr hdim)]
    simp only [hdim, and_true]
    split
    · exact mark_insertNode _
    · rename_i hn
      have hmark : x.mark id = none := by rw [mark, hn]; rfl
      split
      · exact mark_insertNode _
      · rename_i hkeys
        refine (mark_insertLayers _ _).trans ?_
        have hlayers := layersDown_ne_nil
          (le_min (Int.natCast_nonneg newLevel) (hx hkeys))
        simp [hmark, hlayers]
  · rw [if_pos hdim]
    simp [hdim]

/-- **Inserting a vector that fits puts its id into the index.** -/
theorem contains_insert (hx : x.Rooted) {vector : List F} {newLevel : ℕ} :
    (x.insert id vector newLevel).contains id' = true ↔
      (id' = id ∧ vector.length = x.config.dimension) ∨ x.contains id' = true := by
  rw [contains_iff, contains_iff, mark_insert hx]
  split
  · rename_i h
    simp [h]
  · rename_i h
    simp [h]

theorem Rooted.insert (hx : x.Rooted) {vector : List F} {newLevel : ℕ} : (x.insert id vector newLevel).Rooted := by
  unfold HNSWIndex.insert
  split
  · exact hx
  · split
    · rename_i n hn
      exact fun _ => hx (keys_ne_nil hn)
    · dsimp only
      split
      · exact fun _ => Int.natCast_nonneg newLevel
      · exact fun _ => le_trans (Int.natCast_nonneg newLevel) (le_max_right _ _)

end Marks

end HNSWIndex
end Vector
end Amind
