/-
# Descendants

The descendants of a memory, with a bound on how many child links away they are.
They are put down when they are queued, so the memory itself is not among them.

`traversals_exact` says of this search and of the traversal of the graph, which
puts the memories down when it takes them, what each of the two lists.
-/
import Amind.Graph.Queries
import Amind.Lineage.Propagator

namespace Amind
namespace Lineage
namespace LineageIndex

variable (x : LineageIndex)

/-- Take the memories of the frontier one after the other. `none` if the turns do
not last. -/
def descendantsLoop (maxDepth : ℤ) : ℕ → List (UInt64 × ℕ) → List UInt64 → List UInt64 → Option (List UInt64)
  | _, [], _, result => some result
  | 0, _ :: _, _, _ => none
  | turns + 1, (currentId, depth) :: frontier, visited, result =>
    if maxDepth ≤ depth then descendantsLoop maxDepth turns frontier visited result
    else
      let new := Breadth.fresh visited (x.getChildren currentId)
      descendantsLoop maxDepth turns (frontier ++ new.map fun id => (id, depth + 1)) (visited ++ new) (result ++ new)

/-- Every turn but the first takes a child that is listed. -/
def getTransitiveDescendants (parentId : UInt64) (maxDepth : ℤ) : Option (List UInt64) :=
  x.descendantsLoop maxDepth (x.listed.length + 1) [(parentId, 0)] [parentId] []

/-- The loop puts down what a search takes later on. -/
theorem descendantsLoop_eq (maxDepth : ℤ) : ∀ (turns : ℕ) (frontier : List (UInt64 × ℕ)) (visited result : List UInt64),
    x.descendantsLoop maxDepth turns frontier visited result =
      (Levels.search x.getChildren maxDepth.toNat turns frontier visited).map fun taken =>
        result ++ (taken.drop frontier.length).map Prod.fst
  | _, [], _, result => by simp [descendantsLoop, Levels.search]
  | 0, _ :: _, _, _ => rfl
  | turns + 1, (currentId, depth) :: frontier, visited, result => by
    have hbound : maxDepth ≤ (depth : ℤ) ↔ maxDepth.toNat ≤ depth := Int.toNat_le.symm
    unfold descendantsLoop Levels.search
    by_cases hd : maxDepth.toNat ≤ depth
    · rw [if_pos (hbound.mpr hd), if_pos hd, descendantsLoop_eq maxDepth turns, Option.map_map]
      congr 1
    · rw [if_neg (mt hbound.mp hd), if_neg hd]
      dsimp only
      rw [descendantsLoop_eq maxDepth turns]
      cases hs : Levels.search x.getChildren maxDepth.toNat turns _ _ with
      | none => rfl
      | some taken =>
        -- what was queued now is taken after the frontier
        obtain ⟨rest, rfl⟩ := Levels.prefix_of_search hs
        have hnew : (Breadth.fresh visited (x.getChildren currentId)).map (Prod.fst ∘ fun id => (id, depth + 1)) =
            Breadth.fresh visited (x.getChildren currentId) := List.map_id _
        rw [Option.map_some, Option.map_some, Option.map_some, List.drop_left, List.length_cons, List.drop_succ_cons,
          List.append_assoc frontier, List.drop_left, List.map_append, List.map_map, hnew, List.append_assoc]

/-- **Both traversals with a bound are exact**: they end, and list the memories
within the bound without repetition, nearer ones first. -/
theorem traversals_exact {F : Type} (g : Graph.GraphStore F) (x : LineageIndex) (start : UInt64) {maxDepth : ℤ}
    (hdepth : 0 ≤ maxDepth) :
    (∃ result, g.traverse start maxDepth = some result ∧
        Levels.Lists g.targets start (fun k => (k : ℤ) ≤ maxDepth) result) ∧
      ∃ result, x.getTransitiveDescendants start maxDepth = some result ∧
        Levels.Lists x.getChildren start (fun k => 1 ≤ k ∧ (k : ℤ) ≤ maxDepth) result := by
  refine ⟨g.traverse_exact start hdepth, ?_⟩
  have htargets : ∀ a, ∀ b ∈ x.getChildren a, b ∈ _ := fun _ _ h => mem_listed h
  obtain ⟨taken, hsearch, hlists⟩ := Levels.search_exact htargets maxDepth.toNat start
  obtain ⟨rest, rfl⟩ := Levels.prefix_of_search hsearch
  have hbound : (fun k : ℕ => 1 ≤ k ∧ (k : ℤ) ≤ maxDepth) = fun k => 1 ≤ k ∧ k ≤ maxDepth.toNat := by
    funext k
    exact propext (and_congr_right' (Int.le_toNat hdepth).symm)
  refine ⟨rest.map Prod.fst, ?_, ?_⟩
  · unfold getTransitiveDescendants
    rw [descendantsLoop_eq, hsearch]
    rfl
  · rw [hbound]
    exact hlists.tail

/-- A graph with a circle of edges, and a child of two parents. -/
theorem traversals_circle :
    (0 : ℤ) ≤ 2 ∧
    (∃ result, (Graph.GraphStore.addEdgeInternal (({} : Graph.GraphStore ℤ).addEdgeInternal 1 2 .caused 0 10) 2 1 .caused 0
        11).traverse 1 2 = some result ∧ Levels.Lists (Graph.GraphStore.addEdgeInternal
        (({} : Graph.GraphStore ℤ).addEdgeInternal 1 2 .caused 0 10) 2 1 .caused 0 11).targets 1
        (fun k => (k : ℤ) ≤ 2) result) ∧
      ∃ result, ((record {} derived).record merged).getTransitiveDescendants 1 2 = some result ∧
        Levels.Lists ((record {} derived).record merged).getChildren 1 (fun k => 1 ≤ k ∧ (k : ℤ) ≤ 2) result :=
  ⟨by decide, traversals_exact _ _ 1 (by decide)⟩

end LineageIndex
end Lineage
end Amind
