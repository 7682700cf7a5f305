/-
# What a record is read from

Reading a record never leaves the input, and gives a record only if the lengths
sum to within the input and the checksum is that of what they span. Of its nine
enumerations four are checked. The confidence is taken from the header as it is,
and the layer, the lineage, the source and the gate's decision are numbers in the
metadata of which the lowest eight bits are taken.

`strict_iff` says for which bytes all nine have declared values: those whose
confidence and whose metadata have.
-/
import Amind.Core.RawRoundTrip

namespace Amind
namespace Core

open LittleEndian WireFormat
open Checked (Safe)
open Coded (toByte isByte)

/-- The enumerations that are kept with the metadata have declared values. -/
def declared (F : Type) : Predicates F where
  layer b := isByte MemoryLayer b = true
  lineageOp b := isByte LineageOp b = true
  sourceTier b := isByte SourceTier b = true
  gateDecision b := isByte GateDecision b = true

namespace RawRecord

variable {F D : Type} (nf : Numbers F D) (crc : List UInt8 → UInt32) (data : List UInt8)

/-- All enumerations have declared values. -/
structure Declared (r : RawRecord F) : Prop where
  scope : isByte MemoryScope r.scope = true
  memoryType : isByte MemoryType r.memoryType = true
  tier : isByte MemoryTier r.tier = true
  phase : isByte MemoryPhase r.phase = true
  confidenceLevel : isByte Confidence r.confidenceLevel = true
  layer : isByte MemoryLayer r.layer = true
  lineageOp : isByte LineageOp r.lineageOp = true
  sourceTier : isByte SourceTier r.sourceTier = true
  gateDecision : isByte GateDecision r.gateDecision = true

/-- Reading does not leave the input, and of what is read the lengths sum to
within the input, the checksum is the stored one and all enumerations have
declared values. -/
structure Strict [Zero F] : Prop where
  safe : Safe (deserialize nf crc data)
  within : ∀ r, deserialize nf crc data = .ok r → payloadSize (RecordHeader.ofBytes data) data + 4 ≤ data.length
  checksum : ∀ r, deserialize nf crc data = .ok r →
    UInt32.ofNat (field data (payloadSize (RecordHeader.ofBytes data) data) 4) =
      crc (data.take (payloadSize (RecordHeader.ofBytes data) data))
  declared : ∀ r, deserialize nf crc data = .ok r → r.Declared

/-- The metadata among the bytes. -/
def metadataOf : List UInt8 :=
  let h := RecordHeader.ofBytes data
  slice data (stringsEnd h data + 4 * h.embeddingDim.toNat + h.contentLen.toNat) h.metadataLen.toNat

/-- What is not checked is declared: the confidence, and each enumeration that
the metadata have and that is read. -/
structure Declares : Prop where
  confidence : (RecordHeader.ofBytes data).version = 2 →
    isByte Confidence (RecordHeader.ofBytes data).confidenceLevel = true
  metadata : ∀ m ∈ membersRead nf (metadataOf data), (Core.declared F).Says nf m.1 m.2

variable {nf crc data} [Zero F]

/-- What is read of accepted bytes has declared values if the bytes do. -/
theorem declared_recordOf (h : Accepted crc data) :
    (recordOf nf (RecordHeader.ofBytes data) data).Declared ↔ Declares nf data := by
  have hfresh : ∀ k, (Core.declared F).Holds k .fresh := by
    intro k
    cases k <;> trivial
  have hmeta := holds_decode nf hfresh (metadataOf data)
  constructor
  · intro hd
    refine ⟨fun hv => ?_, hmeta.mp fun k => ?_⟩
    · have hc : isByte Confidence (if (RecordHeader.ofBytes data).version = 2 then
          (RecordHeader.ofBytes data).confidenceLevel else toByte Confidence.inferred) = true := hd.confidenceLevel
      rwa [if_pos hv] at hc
    · cases k with
      | layer => exact hd.layer
      | lineageOp => exact hd.lineageOp
      | sourceTier => exact hd.sourceTier
      | gateDecision => exact hd.gateDecision
      | _ => trivial
  · intro hd
    have hv2 := hmeta.mpr hd.metadata
    have hheader : ∀ {α : Type} [DecidableEq α] [Coded α] {b : UInt8} (a : α),
        ((RecordHeader.ofBytes data).version = 2 → isByte α b = true) →
        isByte α (if (RecordHeader.ofBytes data).version = 2 then b else toByte a) = true := by
      intro α _ _ b a hb
      by_cases hv : (RecordHeader.ofBytes data).version = 2
      · rw [if_pos hv]
        exact hb hv
      · rw [if_neg hv]
        exact Coded.isByte_toByte a
    exact ⟨hheader _ h.scope, hheader _ h.memoryType, hheader _ h.tier, h.phase, hheader _ hd.confidence, hv2 .layer,
      hv2 .lineageOp, hv2 .sourceTier, hv2 .gateDecision⟩

/-- **Reading is strict** if and only if what is accepted has declared values
where they are not checked. -/
theorem strict_iff {F D : Type} [Zero F] (nf : Numbers F D) (crc : List UInt8 → UInt32) (data : List UInt8) :
    Strict nf crc data ↔ (Accepted crc data → Declares nf data) := by
  constructor
  · intro hs ha
    exact (declared_recordOf ha).mp (hs.declared _ (deserialize_eq_ok_iff.mpr ⟨ha, rfl⟩))
  · intro h
    refine ⟨?_, fun r hr => ?_, fun r hr => ?_, fun r hr => ?_⟩
    · rw [deserialize_eq]
      exact Checked.safe_ofExcept _
    · exact (deserialize_eq_ok_iff.mp hr).1.body
    · exact (deserialize_eq_ok_iff.mp hr).1.checksum
    · obtain ⟨ha, rfl⟩ := deserialize_eq_ok_iff.mp hr
      exact (declared_recordOf ha).mpr (h ha)

/-- A memory with a confidence that has no name. -/
def unnamed : RawRecord UInt32 := { V2Fields.fresh with confidenceLevel := 7, confidenceScore := 0, importance := 0 }

/-- **It is read**, and so is not refused. -/
theorem not_strict_unnamed : isByte Confidence unnamed.confidenceLevel = false ∧
    ∀ crc, ¬ Strict Numbers.whole crc (unnamed.serialize Numbers.whole crc) := by
  refine ⟨by decide, fun crc hs => ?_⟩
  have hread : deserialize Numbers.whole crc (unnamed.serialize Numbers.whole crc) = .ok _ :=
    deserialize_eq_ok_iff.mpr ⟨(accepted_serialize unnamed).mpr ⟨by decide, by decide, by decide, by decide⟩, rfl⟩
  have hconf := (hs.declared _ hread).confidenceLevel
  rw [(layout_serialize _ _ unnamed).header] at hconf
  have hseven : isByte Confidence 7 = true := hconf
  exact absurd hseven (by decide)

end RawRecord
end Core
end Amind
