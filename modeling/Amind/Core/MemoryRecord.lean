/-
# Memory records

A record and its phase transitions. `F` is the type of the record's floats, of
which only the operations in `Floats` are used.

The fields fall into those that have a fixed place in the serialized record,
which come back from there as they were, and the `Body`, of which a `Wire`
says what comes back.

The enumerations have names, the texts under which they appear in requests,
answers and exports. A text that is no name is read as a default.
-/
import Mathlib.Data.Nat.Bitwise
import Mathlib.Data.String.Basic
import Mathlib.Data.UInt
import Amind.Lib.Json

namespace Amind
namespace Core

/-- The operations on floats. -/
class Floats (F : Type) extends Add F, Sub F, Zero F, One F, LT F, LE F where
  decidableLT : DecidableLT F
  decidableLE : DecidableLE F

instance Floats.ltDecidable {F : Type} [h : Floats F] : DecidableLT F := h.decidableLT

instance Floats.leDecidable {F : Type} [h : Floats F] : DecidableLE F := h.decidableLE

/-- Integers have them too. -/
instance Floats.int : Floats ℤ := ⟨inferInstance, inferInstance⟩

/-- The bytes of a string. -/
abbrev Text := List UInt8

inductive MemoryScope
  | «private»
  | agentShared
  deriving DecidableEq, Repr

inductive MemoryType
  | userProfile
  | feedback
  | domainKnowledge
  | reference
  | skill
  | ephemeral
  deriving DecidableEq, Repr

inductive MemoryTier
  | working
  | shortTerm
  | longTerm
  deriving DecidableEq, Repr

inductive MemoryPhase
  | active
  | versioned
  | archived
  | tombstone
  | invalidated
  deriving DecidableEq, Repr

inductive Confidence
  | verified
  | inferred
  | stale
  | conflicted
  deriving DecidableEq, Repr

inductive MemoryLayer
  | raw
  | derived
  deriving DecidableEq, Repr

inductive LineageOp
  | none
  | summarize
  | aggregate
  | infer
  | distill
  deriving DecidableEq, Repr

inductive SourceTier
  | assertion
  | behavioral
  | inference
  deriving DecidableEq, Repr

inductive GateDecision
  | accepted
  | rejected
  | deferred
  deriving DecidableEq, Repr

namespace RecordFlags

def ALIVE : UInt16 := (1 : UInt16) <<< 0
def VERSIONED : UInt16 := (1 : UInt16) <<< 1
def TOMBSTONE : UInt16 := (1 : UInt16) <<< 3
def HAS_EMBEDDING : UInt16 := (1 : UInt16) <<< 4

end RecordFlags

/-- A map of strings, its entries in the order of their keys. They come out of
JSON requests, so they are well-formed UTF-8. -/
structure StringMap where
  entries : List (Utf8Text × Utf8Text)
  sorted : Keyed.Ascending entries
  deriving DecidableEq

def StringMap.empty : StringMap := ⟨[], .nil⟩

theorem StringMap.eq_empty {m : StringMap} (h : m.entries = []) : m = .empty := by
  obtain ⟨entries, sorted⟩ := m
  cases h
  rfl

/-- The fields of a record that vary in length, and those that are kept with
its metadata. -/
structure Body (F : Type) where
  userId : Text := []
  agentId : Text := []
  embedding : List F := []
  content : Text := []
  userMetadata : StringMap := .empty
  layer : MemoryLayer := .raw
  lineageParents : List UInt64 := []
  lineageOp : LineageOp := .none
  sourceTier : SourceTier := .inference
  gateDecision : GateDecision := .accepted
  marginalValue : F
  forgetScore : F
  lastGcVisit : UInt32 := 0
  resurrectionCount : UInt8 := 0
  deriving DecidableEq

structure MemoryRecord (F : Type) extends Body F where
  memoryId : UInt64 := 0
  scope : MemoryScope := .private
  memoryType : MemoryType := .ephemeral
  tier : MemoryTier := .working
  phase : MemoryPhase := .active
  confidenceLevel : Confidence := .inferred
  confidenceScore : F
  flags : UInt16 := RecordFlags.ALIVE
  importance : F
  accessCount : UInt32 := 0
  memVersion : UInt32 := 1
  parentId : UInt64 := 0
  createdAt : UInt32 := 0
  lastAccessed : UInt32 := 0
  sourceTurn : UInt16 := 0
  deriving DecidableEq

/-- A record with every float zero. -/
def MemoryRecord.zero {F : Type} [Zero F] : MemoryRecord F where
  marginalValue := 0
  forgetScore := 0
  confidenceScore := 0
  importance := 0

/-- What comes back of a record's body that was serialized. It comes back whole
the next time. -/
structure Wire (F : Type) where
  clip : Body F → Body F
  clip_clip : ∀ b, clip (clip b) = clip b

/-- Everything comes back. -/
def Wire.whole {F : Type} : Wire F := ⟨id, fun _ => rfl⟩

namespace MemoryRecord

variable {F : Type}

def isAlive (r : MemoryRecord F) : Bool :=
  r.flags &&& RecordFlags.TOMBSTONE = 0 ∧ r.phase ≠ .tombstone ∧ r.phase ≠ .invalidated

def markVersioned (r : MemoryRecord F) : MemoryRecord F :=
  { r with phase := .versioned, flags := (r.flags &&& ~~~RecordFlags.ALIVE) ||| RecordFlags.VERSIONED }

def markTombstone (r : MemoryRecord F) : MemoryRecord F :=
  { r with phase := .tombstone, flags := (r.flags &&& ~~~RecordFlags.ALIVE) ||| RecordFlags.TOMBSTONE }

/-- The next version of the record, under a new id. -/
def createNewVersion (r : MemoryRecord F) (newMemoryId : UInt64) (now : UInt32) : MemoryRecord F :=
  { r with
    memoryId := newMemoryId
    parentId := r.memoryId
    memVersion := r.memVersion + 1
    phase := .active
    flags := RecordFlags.ALIVE
    createdAt := now
    lastAccessed := now
    accessCount := 0 }

/-- The record as it comes back. -/
def wire (w : Wire F) (r : MemoryRecord F) : MemoryRecord F := { r with toBody := w.clip r.toBody }

@[simp] theorem wire_wire (w : Wire F) (r : MemoryRecord F) : (r.wire w).wire w = r.wire w := by
  show { r with toBody := w.clip (w.clip r.toBody) } = _
  rw [w.clip_clip]
  rfl

@[simp] theorem wire_whole (r : MemoryRecord F) : r.wire .whole = r := rfl

@[simp] theorem isAlive_wire (w : Wire F) (r : MemoryRecord F) : (r.wire w).isAlive = r.isAlive := rfl

@[simp] theorem phase_wire (w : Wire F) (r : MemoryRecord F) : (r.wire w).phase = r.phase := rfl

/-! ### The tombstone flag -/

/-- The record is flagged removed. -/
def Tombstoned (r : MemoryRecord F) : Prop := r.flags &&& RecordFlags.TOMBSTONE ≠ 0

theorem tombstoned_iff {r : MemoryRecord F} : r.Tombstoned ↔ r.flags.toNat.testBit 3 = true := by
  have h : (r.flags &&& RecordFlags.TOMBSTONE).toNat = (r.flags.toNat.testBit 3).toNat * 2 ^ 3 := by
    rw [UInt16.toNat_and]
    exact Nat.and_two_pow r.flags.toNat 3
  rw [Tombstoned, Ne, ← UInt16.toNat_inj, h]
  cases r.flags.toNat.testBit 3 <;> simp

theorem isAlive_iff {r : MemoryRecord F} :
    r.isAlive = true ↔ ¬ r.Tombstoned ∧ r.phase ≠ .tombstone ∧ r.phase ≠ .invalidated := by
  unfold isAlive Tombstoned
  rw [decide_eq_true_iff, not_not]

theorem Tombstoned.not_alive {r : MemoryRecord F} (h : r.Tombstoned) : r.isAlive = false := by
  unfold isAlive
  exact decide_eq_false fun ha => h ha.1

theorem Tombstoned.wire {r : MemoryRecord F} (h : r.Tombstoned) (w : Wire F) : (r.wire w).Tombstoned := h

theorem tombstoned_markTombstone (r : MemoryRecord F) : r.markTombstone.Tombstoned := by
  have hbit : RecordFlags.TOMBSTONE.toNat.testBit 3 = true := by decide
  rw [tombstoned_iff]
  show ((r.flags &&& ~~~RecordFlags.ALIVE) ||| RecordFlags.TOMBSTONE).toNat.testBit 3 = true
  rw [UInt16.toNat_or, Nat.testBit_or, hbit, Bool.or_true]

theorem Tombstoned.markVersioned {r : MemoryRecord F} (h : r.Tombstoned) : r.markVersioned.Tombstoned := by
  have hbit : (~~~RecordFlags.ALIVE).toNat.testBit 3 = true := by decide
  rw [tombstoned_iff] at h ⊢
  show ((r.flags &&& ~~~RecordFlags.ALIVE) ||| RecordFlags.VERSIONED).toNat.testBit 3 = true
  rw [UInt16.toNat_or, Nat.testBit_or, UInt16.toNat_and, Nat.testBit_and, h, hbit]
  rfl

/-- More flags leave it set. -/
theorem Tombstoned.flag {r r' : MemoryRecord F} (h : r.Tombstoned) {f : UInt16} (hf : r'.flags = r.flags ||| f) :
    r'.Tombstoned := by
  rw [tombstoned_iff] at h ⊢
  rw [hf, UInt16.toNat_or, Nat.testBit_or, h, Bool.true_or]

/-- Flagging an embedding leaves it as it is. -/
theorem tombstoned_hasEmbedding {r r' : MemoryRecord F} (hf : r'.flags = r.flags ||| RecordFlags.HAS_EMBEDDING) :
    r'.Tombstoned ↔ r.Tombstoned := by
  have hbit : RecordFlags.HAS_EMBEDDING.toNat.testBit 3 = false := by decide
  rw [tombstoned_iff, tombstoned_iff, hf, UInt16.toNat_or, Nat.testBit_or, hbit, Bool.or_false]

end MemoryRecord
/-! ### Names of the enumerations -/

def scopeToString : MemoryScope → Utf8Text
  | .private => Utf8.lit "private"
  | .agentShared => Utf8.lit "agent_shared"

def scopeFromString (s : Text) : MemoryScope :=
  if s = Utf8.bytes "agent_shared" then .agentShared else .private

def memoryTypeToString : MemoryType → Utf8Text
  | .userProfile => Utf8.lit "user_profile"
  | .feedback => Utf8.lit "feedback"
  | .domainKnowledge => Utf8.lit "domain_knowledge"
  | .reference => Utf8.lit "reference"
  | .skill => Utf8.lit "skill"
  | .ephemeral => Utf8.lit "ephemeral"

def memoryTypeFromString (s : Text) : MemoryType :=
  if s = Utf8.bytes "user_profile" then .userProfile
  else if s = Utf8.bytes "feedback" then .feedback
  else if s = Utf8.bytes "domain_knowledge" then .domainKnowledge
  else if s = Utf8.bytes "reference" then .reference
  else if s = Utf8.bytes "skill" then .skill
  else .ephemeral

def memoryTierToString : MemoryTier → Utf8Text
  | .working => Utf8.lit "working"
  | .shortTerm => Utf8.lit "short_term"
  | .longTerm => Utf8.lit "long_term"

def memoryTierFromString (s : Text) : MemoryTier :=
  if s = Utf8.bytes "short_term" ∨ s = Utf8.bytes "consolidated" then .shortTerm
  else if s = Utf8.bytes "long_term" then .longTerm
  else .working

def layerToString : MemoryLayer → Utf8Text
  | .raw => Utf8.lit "Raw"
  | .derived => Utf8.lit "Derived"

def phaseToString : MemoryPhase → Utf8Text
  | .active => Utf8.lit "Active"
  | .versioned => Utf8.lit "Versioned"
  | .archived => Utf8.lit "Archived"
  | .tombstone => Utf8.lit "Tombstone"
  | .invalidated => Utf8.lit "Invalidated"

def confidenceToString : Confidence → Utf8Text
  | .verified => Utf8.lit "Verified"
  | .inferred => Utf8.lit "Inferred"
  | .stale => Utf8.lit "Stale"
  | .conflicted => Utf8.lit "Conflicted"

end Core
end Amind
