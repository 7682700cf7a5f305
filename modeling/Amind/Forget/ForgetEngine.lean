/-
# Forget scores

How much there is to be said for forgetting a memory, from the signals of its
use, and what is recommended for it. Shadow mode is only a flag here: whoever
runs a cycle has to ask for it.
-/
import Mathlib.Data.List.Sort
import Amind.Core.FloatOps
import Amind.Memory.Store

namespace Amind
namespace Forget

open Amind.Core
open Amind.Memory.MemoryStore (clamp)

inductive Decision
  | decay
  | archive
  | tombstone
  | vacuum
  | dropFromHNSW
  | resolveConflict
  | lineageInvalidate
  | gateReject
  | gateDefer
  deriving DecidableEq, Repr

structure ForgetConfig (F : Type) [FloatOps F] where
  weightStaleness : F := 0.25
  weightLowAccess : F := 0.20
  weightLowImportance : F := 0.20
  weightConflictPenalty : F := 0.10
  weightRedundancy : F := 0.10
  weightVerifiedBonus : F := 0.10
  weightGraphCentrality : F := 0.05
  decayThreshold : F := 0.3
  archiveThreshold : F := 0.6
  tombstoneThreshold : F := 0.85
  sampleRatio : F := 0.1
  shadowMode : Bool := true
  staleHours : F := 168.0

structure ForgetSignals (F : Type) [FloatOps F] where
  staleness : F := 0
  lowAccess : F := 0
  lowImportance : F := 0
  conflictPenalty : F := 0
  redundancy : F := 0
  verifiedBonus : F := 0
  graphCentrality : F := 0

/-- What is recommended for one memory. -/
structure GcEvaluation (F : Type) where
  memoryId : UInt64
  forgetScore : F
  recommendedAction : Decision
  reason : Text

section Scores

variable {F : Type} [FloatOps F] (cfg : ForgetConfig F)

def computeForgetScore (signals : ForgetSignals F) : F :=
  let score := cfg.weightStaleness * signals.staleness
    + cfg.weightLowAccess * signals.lowAccess
    + cfg.weightLowImportance * signals.lowImportance
    + cfg.weightConflictPenalty * signals.conflictPenalty
    + cfg.weightRedundancy * signals.redundancy
    - cfg.weightVerifiedBonus * signals.verifiedBonus
    - cfg.weightGraphCentrality * signals.graphCentrality
  clamp score 0 1

/-- The reason given for a score that reaches a threshold. -/
def reached (threshold : F) : Text := Utf8.bytes "forget_score >= " ++ toText threshold

def evaluate (memoryId : UInt64) (signals : ForgetSignals F) : GcEvaluation F :=
  let score := computeForgetScore cfg signals
  if cfg.tombstoneThreshold ≤ score then ⟨memoryId, score, .tombstone, reached cfg.tombstoneThreshold⟩
  else if cfg.archiveThreshold ≤ score then ⟨memoryId, score, .archive, reached cfg.archiveThreshold⟩
  else if cfg.decayThreshold ≤ score then ⟨memoryId, score, .decay, reached cfg.decayThreshold⟩
  else ⟨memoryId, score, .decay, Utf8.bytes "below all thresholds, no action needed"⟩

/-- The evaluations of a batch, highest score first. -/
def runCycle (batch : List (UInt64 × ForgetSignals F)) : List (GcEvaluation F) :=
  (batch.map fun b => evaluate cfg b.1 b.2).insertionSort fun a b => ¬ a.forgetScore < b.forgetScore

variable {cfg}

@[simp] theorem memoryId_evaluate (id : UInt64) (signals : ForgetSignals F) :
    (evaluate cfg id signals).memoryId = id := by
  unfold evaluate
  dsimp only
  split
  · rfl
  · split
    · rfl
    · split <;> rfl

@[simp] theorem forgetScore_evaluate (id : UInt64) (signals : ForgetSignals F) :
    (evaluate cfg id signals).forgetScore = computeForgetScore cfg signals := by
  unfold evaluate
  dsimp only
  split
  · rfl
  · split
    · rfl
    · split <;> rfl

theorem mem_runCycle {batch : List (UInt64 × ForgetSignals F)} {e : GcEvaluation F} :
    e ∈ runCycle cfg batch ↔ ∃ b ∈ batch, evaluate cfg b.1 b.2 = e := by
  rw [runCycle, (List.perm_insertionSort _ _).mem_iff, List.mem_map]

theorem length_runCycle (batch : List (UInt64 × ForgetSignals F)) : (runCycle cfg batch).length = batch.length := by
  rw [runCycle, List.length_insertionSort, List.length_map]

end Scores

end Forget
end Amind
