/-
# Deduplicating a pool of memories

The worker goes through the memories from the shortest vector on and compares
each with the ones after it, until the norms are too far apart. Of two that are
similar the less important one is archived. A memory that turns out less
important than one it is compared with is archived, but is compared with the
rest all the same, and what it is found similar to then is archived in its
place: the memory that was kept for it.

Each entry of a group says which memory is archived, which one it was archived
for being similar to, and which one is kept for it.
-/
import Mathlib.Data.List.Sort
import Mathlib.Logic.Function.Basic
import Amind.Core.FloatOps

namespace Amind
namespace Consolidation

open Amind.Core

/-- A memory that is archived. -/
structure Merge (F : Type) where
  victim : MemoryRecord F
  similar : MemoryRecord F
  kept : MemoryRecord F

structure DedupResult (F : Type) where
  kept : MemoryRecord F
  merges : List (Merge F)

/-- The ids of a group, as the worker answers them. -/
def DedupResult.archivedIds {F : Type} (g : DedupResult F) : List UInt64 := g.merges.map (·.victim.memoryId)

/-- The group of one memory while the pairs are gone through, and which places
of the pool are archived. -/
structure Group (F : Type) where
  kept : MemoryRecord F
  merges : List (Merge F)
  archived : ℕ → Bool

/-- A memory with its place in the pool and the norm of its vector. -/
structure Entry (F : Type) where
  place : ℕ
  memory : MemoryRecord F
  norm : F

section Dedup

variable {F : Type} [FloatOps F]

def squares (a : List F) : F := a.foldl (fun s x => s + x * x) 0

def cosineSim (a b : List F) : F :=
  if a.length ≠ b.length ∨ a = [] then 0
  else
    let dot := (a.zip b).foldl (fun s x => s + x.1 * x.2) 0
    let denom := sqrt (squares a) * sqrt (squares b)
    if 0 < denom then dot / denom else 0

/-- The memories from the shortest vector on. -/
def entries (memories : List (MemoryRecord F)) : List (Entry F) :=
  (memories.zipIdx.map fun m => ⟨m.2, m.1,
    if m.1.embedding = [] then 0 else sqrt (squares m.1.embedding)⟩).insertionSort
    fun a b => ¬ b.norm < a.norm

/-- Compare a memory with those after it. -/
def pairLoop (threshold : F) (x : Entry F) : List (Entry F) → Group F → Group F
  | [], g => g
  | y :: ys, g =>
    if g.archived y.place ∨ y.memory.embedding = [] then pairLoop threshold x ys g
    else if 0 < x.norm ∧ 0 < y.norm ∧ x.norm / y.norm < threshold then g
    else if threshold ≤ cosineSim x.memory.embedding y.memory.embedding then
      if x.memory.importance < y.memory.importance then
        pairLoop threshold x ys
          { kept := y.memory
            merges := g.merges ++ [⟨g.kept, y.memory, y.memory⟩]
            archived := Function.update g.archived x.place true }
      else
        pairLoop threshold x ys
          { g with
            merges := g.merges ++ [⟨y.memory, x.memory, g.kept⟩]
            archived := Function.update g.archived y.place true }
    else pairLoop threshold x ys g

def dedupFrom (threshold : F) (archived : ℕ → Bool) : List (Entry F) → List (DedupResult F)
  | [] => []
  | x :: xs =>
    if archived x.place ∨ x.memory.embedding = [] then dedupFrom threshold archived xs
    else
      let g := pairLoop threshold x xs ⟨x.memory, [], archived⟩
      if g.merges.isEmpty then dedupFrom threshold g.archived xs
      else ⟨g.kept, g.merges⟩ :: dedupFrom threshold g.archived xs

/-- The groups of similar memories. -/
def dedup (threshold : F) (memories : List (MemoryRecord F)) : List (DedupResult F) :=
  dedupFrom threshold (fun _ => false) (entries memories)

end Dedup

end Consolidation
end Amind
