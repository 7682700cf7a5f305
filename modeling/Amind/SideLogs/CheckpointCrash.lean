/-
# A crash in a checkpoint

The graph and the lineage index write their snapshots in the same way: to a file
beside the old one, which is then removed, before the new one is given its name
and the log is cut. Recovery does not look at the file beside it. So after the
removal, and until the renaming, the directory holds only what the log writes.
`checkpoint_crash_iff` says of both that this is the only operation after which a
crash loses anything.
-/
import Amind.Graph.Histories
import Amind.Lineage.Histories

namespace Amind
namespace SideLogs

open Run (run Along)
open Amind.Graph (OpenGraph GraphOp GraphStore Unspecified)
open Lineage (OpenIndex IndexOp LineageIndex Orders)
open Amind.Vector (FloatBits)

/-- **A crash after `n` file operations of a checkpoint leaves a directory that is
recovered to what the store was before it, if and only if the crash does not fall
behind the removal of an old snapshot, or the log writes all that the old snapshot
holds.** For every history of a graph store and of a lineage index. -/
theorem checkpoint_crash_iff {F : Type} (bits : FloatBits F) {gos : List (GraphOp F)} {u : Unspecified}
    (hgos : Along (OpenGraph.step bits) (OpenGraph.Counts bits) {} gos)
    (hu : OpenGraph.Counts bits (run (OpenGraph.step bits) {} gos) (.checkpoint u)) {los : List IndexOp} {o : Orders}
    (hlos : Along OpenIndex.step OpenIndex.Counts {} los)
    (ho : OpenIndex.Counts (run OpenIndex.step {} los) (.checkpoint o)) (n : ℕ) :
    (GraphStore.SameEdges (GraphStore.recover bits ((run (OpenGraph.step bits) {} gos).dir.crash
          ((run (OpenGraph.step bits) {} gos).snapshot bits u) n)) (run (OpenGraph.step bits) {} gos).store ↔
        ¬ ((run (OpenGraph.step bits) {} gos).dir.snapshot.isSome ∧ n = 2) ∨
          (run (OpenGraph.step bits) {} gos).Covered bits) ∧
      (LineageIndex.SameLineage (LineageIndex.recover ((run OpenIndex.step {} los).dir.crash
          ((run OpenIndex.step {} los).snapshot o) n)) (run OpenIndex.step {} los).index ↔
        ¬ ((run OpenIndex.step {} los).dir.snapshot.isSome ∧ n = 2) ∨ (run OpenIndex.step {} los).Covered) :=
  ⟨OpenGraph.crash_iff hgos hu n, OpenIndex.crash_iff hlos ho n⟩

/-- Nodes in the order of the table, no bytes between the fields. -/
def asStored : Unspecified := ⟨fun l => l, fun _ => .refl _, fun _ => (0, 0)⟩

/-- The tables in their own order. -/
def inPlace : Orders := ⟨fun l => l, fun _ => .refl _, fun l => l, fun _ => .refl _⟩

/-- An edge in the snapshot, another one in the log. -/
def edgeSaved : List (GraphOp UInt32) :=
  [.change (.addEdge 1 2 .related 7 10), .checkpoint asStored, .change (.addEdge 2 3 .caused 8 11)]

/-- A derived memory in the snapshot, its parent removed since. -/
def childSaved : List IndexOp :=
  [.change (.recordLineage 5 [4] .infer 10), .checkpoint inPlace, .change (.removeNode 4)]

open Amind.Vector.ColdStore (rawBits)

-- a crash when the new snapshots are in place and the logs not yet cut
theorem recovered_before_cut :
    GraphStore.SameEdges (GraphStore.recover rawBits ((run (OpenGraph.step rawBits) {} edgeSaved).dir.crash
        ((run (OpenGraph.step rawBits) {} edgeSaved).snapshot rawBits asStored) 3))
        (run (OpenGraph.step rawBits) {} edgeSaved).store ∧
      LineageIndex.SameLineage (LineageIndex.recover ((run OpenIndex.step {} childSaved).dir.crash
        ((run OpenIndex.step {} childSaved).snapshot inPlace) 3)) (run OpenIndex.step {} childSaved).index := by
  have hgos : Along (OpenGraph.step rawBits) (OpenGraph.Counts rawBits) {} edgeSaved := by decide
  have hlos : Along OpenIndex.step OpenIndex.Counts {} childSaved := by decide
  have h := checkpoint_crash_iff rawBits hgos (u := asStored) (by decide) hlos (o := inPlace) (by decide) 3
  exact ⟨h.1.mpr (Or.inl (by simp)), h.2.mpr (Or.inl (by simp))⟩

-- a crash when the old snapshots are removed and the new ones not yet renamed
theorem lost_before_rename :
    ¬ GraphStore.SameEdges (GraphStore.recover rawBits ((run (OpenGraph.step rawBits) {} edgeSaved).dir.crash
        ((run (OpenGraph.step rawBits) {} edgeSaved).snapshot rawBits asStored) 2))
        (run (OpenGraph.step rawBits) {} edgeSaved).store ∧
      ¬ LineageIndex.SameLineage (LineageIndex.recover ((run OpenIndex.step {} childSaved).dir.crash
        ((run OpenIndex.step {} childSaved).snapshot inPlace) 2)) (run OpenIndex.step {} childSaved).index :=
  ⟨fun h => absurd (h 1).length_eq (by decide +kernel), fun h => absurd (h.1 5) (by decide +kernel)⟩

end SideLogs
end Amind
