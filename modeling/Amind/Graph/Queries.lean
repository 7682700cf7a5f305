/-
# What the graph store answers

A traversal lists what edges lead to from a memory, with a bound on how many of
them. It lists exactly the memories within the bound, nearer ones first
(`traverse_exact`).

The edges into a memory are those of the sources that are listed for it. A
source is listed once for each of its edges to the memory, and each time all of
these are answered: an edge is answered as often as it has parallels
(`getIncomingEdges_iff`).
-/
import Amind.Graph.Histories
import Amind.Lib.Levels

namespace Amind
namespace Graph
namespace GraphStore

open Run (run)

variable {F : Type} (g : GraphStore F)

/-! ### Traversal -/

/-- Where the edges of a memory lead to. -/
def targets (id : UInt64) : List UInt64 := (g.getEdges id).map (·.toId)

/-- Take the memories of the queue one after the other. `none` if the turns do
not last. -/
def traverseLoop (maxDepth : ℤ) : ℕ → List (UInt64 × ℕ) → List UInt64 → List UInt64 → Option (List UInt64)
  | _, [], _, result => some result
  | 0, _ :: _, _, _ => none
  | turns + 1, (current, depth) :: bfs, visited, result =>
    if maxDepth ≤ depth then traverseLoop maxDepth turns bfs visited (result ++ [current])
    else
      let new := Breadth.fresh visited (g.targets current)
      traverseLoop maxDepth turns (bfs ++ new.map fun id => (id, depth + 1)) (visited ++ new) (result ++ [current])

/-- Where all edges lead to. -/
def allTargets : List UInt64 := g.adjacency.entries.flatMap fun e => e.2.map (·.toId)

/-- Every turn but the first takes a memory that an edge leads to. -/
def traverse (startId : UInt64) (maxDepth : ℤ) : Option (List UInt64) :=
  g.traverseLoop maxDepth (g.allTargets.length + 1) [(startId, 0)] [startId] []

theorem mem_allTargets {id dst : UInt64} (h : dst ∈ g.targets id) : dst ∈ g.allTargets := by
  unfold targets getEdges at h
  cases hl : g.adjacency.lookup id with
  | none =>
    rw [hl] at h
    cases h
  | some es =>
    rw [hl] at h
    exact List.mem_flatMap.mpr ⟨⟨id, es⟩, AList.mem_lookup_iff.mp hl, h⟩

/-- The loop takes what a search takes. -/
theorem traverseLoop_eq (maxDepth : ℤ) : ∀ (turns : ℕ) (bfs : List (UInt64 × ℕ)) (visited result : List UInt64),
    g.traverseLoop maxDepth turns bfs visited result =
      (Levels.search g.targets maxDepth.toNat turns bfs visited).map fun taken => result ++ taken.map Prod.fst
  | _, [], _, result => by simp [traverseLoop, Levels.search]
  | 0, _ :: _, _, _ => rfl
  | turns + 1, (current, depth) :: bfs, visited, result => by
    have hbound : maxDepth ≤ (depth : ℤ) ↔ maxDepth.toNat ≤ depth := Int.toNat_le.symm
    unfold traverseLoop Levels.search
    by_cases hd : maxDepth.toNat ≤ depth
    · rw [if_pos (hbound.mpr hd), if_pos hd, traverseLoop_eq maxDepth turns, Option.map_map]
      congr 1
      funext taken
      simp
    · rw [if_neg (mt hbound.mp hd), if_neg hd]
      dsimp only
      rw [traverseLoop_eq maxDepth turns, Option.map_map]
      congr 1
      funext taken
      simp

/-- A traversal ends, and lists exactly the memories within its bound. -/
theorem traverse_exact (startId : UInt64) {maxDepth : ℤ} (hdepth : 0 ≤ maxDepth) :
    ∃ result, g.traverse startId maxDepth = some result ∧
      Levels.Lists g.targets startId (fun k => (k : ℤ) ≤ maxDepth) result := by
  obtain ⟨taken, hsearch, hlists⟩ :=
    Levels.search_exact (fun _ _ h => g.mem_allTargets h) maxDepth.toNat startId
  refine ⟨taken.map Prod.fst, ?_, ?_⟩
  · unfold traverse
    rw [traverseLoop_eq, hsearch]
    rfl
  · have hbound : (fun k : ℕ => (k : ℤ) ≤ maxDepth) = fun k => k ≤ maxDepth.toNat := by
      funext k
      exact propext (Int.le_toNat hdepth).symm
    rw [hbound]
    exact hlists

/-! ### Incoming edges -/

/-- The edges of a source to the memory. -/
def edgesTo (id src : UInt64) : List (GraphEdge F) := (g.getEdges src).filter fun e => e.toId = id

/-- The edges to the memory of each source that is listed. -/
def getIncomingEdges (id : UInt64) : List (GraphEdge F) := (g.sources id).flatMap (g.edgesTo id)

/-- The list has every edge to the memory once, and nothing else. -/
def ListsIncoming (id : UInt64) (l : List (GraphEdge F)) : Prop :=
  l.Nodup ∧ ∀ e, e ∈ l ↔ e.toId = id ∧ ∃ src, e ∈ g.getEdges src

variable {g}

theorem mem_edgesTo {id src : UInt64} {e : GraphEdge F} : e ∈ g.edgesTo id src ↔ e ∈ g.getEdges src ∧ e.toId = id := by
  unfold edgesTo
  rw [List.mem_filter, decide_eq_true_eq]

/-- A source is listed as often as it has edges to the memory. -/
theorem Indexed.count_sources (h : g.Indexed) (id src : UInt64) :
    (g.sources id).count src = (g.edgesTo id src).length := by
  rw [h.counted, List.countP_map, List.countP_eq_length_filter]
  rfl

/-- A source that is listed has an edge. -/
theorem Indexed.edgesTo_ne_nil (h : g.Indexed) {id src : UInt64} : g.edgesTo id src ≠ [] ↔ src ∈ g.sources id := by
  rw [← List.length_pos_iff, ← h.count_sources, List.count_pos_iff]

/-- The edges that are answered are the right ones. -/
theorem Indexed.mem_getIncomingEdges (h : g.Indexed) {id : UInt64} {e : GraphEdge F} :
    e ∈ g.getIncomingEdges id ↔ e.toId = id ∧ ∃ src, e ∈ g.getEdges src := by
  unfold getIncomingEdges
  rw [List.mem_flatMap]
  constructor
  · rintro ⟨src, -, he⟩
    exact ⟨(mem_edgesTo.mp he).2, src, (mem_edgesTo.mp he).1⟩
  · rintro ⟨hid, src, he⟩
    have hmem : e ∈ g.edgesTo id src := mem_edgesTo.mpr ⟨he, hid⟩
    exact ⟨src, h.edgesTo_ne_nil.mp (List.ne_nil_of_mem hmem), hmem⟩

/-- They are answered once if no source is listed twice. -/
theorem Indexed.nodup_getIncomingEdges (h : g.Indexed) (id : UInt64) :
    (g.getIncomingEdges id).Nodup ↔ (g.sources id).Nodup := by
  unfold getIncomingEdges
  rw [List.nodup_flatMap]
  constructor
  · rintro ⟨-, hdisj⟩
    refine hdisj.imp_of_mem fun {src src'} hsrc _ hd heq => ?_
    -- the edges of one source are not apart from themselves
    obtain ⟨e, he⟩ := List.exists_mem_of_ne_nil _ (h.edgesTo_ne_nil.mpr hsrc)
    exact hd he (heq ▸ he)
  · intro hn
    refine ⟨fun src _ => (h.nodup src).filter _, hn.imp fun {src src'} hne e he he' => hne ?_⟩
    exact (h.own src e (mem_edgesTo.mp he).1).symm.trans (h.own src' e (mem_edgesTo.mp he').1)

/-- **The edges into a memory are answered once each if and only if no memory has
two edges to it**, in every state of a store. -/
theorem getIncomingEdges_iff (bits : Vector.FloatBits F) (os : List (StoreOp F)) (id : UInt64) :
    (run (perform bits) {} os).ListsIncoming id ((run (perform bits) {} os).getIncomingEdges id) ↔
      ∀ src, ((run (perform bits) {} os).edgesTo id src).length ≤ 1 := by
  have hstep : (run (perform bits) {} os).InStep := (inStep_run os).1
  have h := hstep.toIndexed
  have hmem : ∀ e, e ∈ (run (perform bits) {} os).getIncomingEdges id ↔ _ := fun e => h.mem_getIncomingEdges
  unfold ListsIncoming
  rw [and_iff_left hmem, h.nodup_getIncomingEdges, List.nodup_iff_count_le_one]
  refine forall_congr' fun src => ?_
  rw [h.count_sources]

open Vector.ColdStore (rawBits)

/-- Memory 1 has two edges to memory 2, and four are answered. -/
theorem getIncomingEdges_parallel : ¬ (run (perform rawBits) {} [.change (.addEdge 1 2 .caused 5 10),
    .change (.addEdge 1 2 .supersedes 6 11)]).ListsIncoming 2 ((run (perform rawBits) {}
    [.change (.addEdge 1 2 .caused 5 10), .change (.addEdge 1 2 .supersedes 6 11)]).getIncomingEdges 2) := by
  rintro ⟨hnodup, -⟩
  exact absurd hnodup (by decide)

end GraphStore
end Graph
end Amind
