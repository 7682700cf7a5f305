/-
# Records with the bytes of their enumerations

In memory an enumeration is a byte, also one that no constructor has, and a
record keeps the bytes of its metadata next to what was read from them. So it is
here: `RawRecord` has a byte for each of its nine enumerations and the metadata
as they were read. They are written again, unless a field that is kept with them
differs from its default.

Reading says of each access what it reads, first in the pass that probes the
lengths of the two strings and again in the one that reads them.
`deserialize_eq` says that none leaves the input, and what comes out.
-/
import Amind.Core.RecordCodec
import Amind.Lib.Checked
import Amind.Lib.Members

namespace Amind
namespace Core

open LittleEndian Json WireFormat
open Checked (within Safe)
open Coded (toByte isByte ofByte)

/-! ### The fields that are kept with the metadata -/

structure V2Fields (F : Type) where
  userMetadata : StringMap := .empty
  layer : UInt8 := toByte MemoryLayer.raw
  lineageParents : List UInt64 := []
  lineageOp : UInt8 := toByte LineageOp.none
  sourceTier : UInt8 := toByte SourceTier.inference
  gateDecision : UInt8 := toByte GateDecision.accepted
  marginalValue : F
  forgetScore : F
  lastGcVisit : UInt32 := 0
  resurrectionCount : UInt8 := 0
  deriving DecidableEq

/-- Every field has its default. -/
def V2Fields.fresh {F : Type} [Zero F] : V2Fields F where
  marginalValue := 0
  forgetScore := 0

section Metadata

variable {F D : Type} (nf : Numbers F D)

namespace V2Fields

def hasV2 (v : V2Fields F) : Bool :=
  v.layer ≠ toByte MemoryLayer.raw ∨ v.lineageParents ≠ [] ∨ v.lineageOp ≠ toByte LineageOp.none ∨
    v.sourceTier ≠ toByte SourceTier.inference ∨ v.gateDecision ≠ toByte GateDecision.accepted ∨
    nf.isZero v.marginalValue = false ∨ nf.isZero v.forgetScore = false ∨ v.lastGcVisit ≠ 0 ∨ v.resurrectionCount ≠ 0

def hasUser (v : V2Fields F) : Bool := v.userMetadata.entries ≠ []

/-- Whether a member is there, and its value. -/
def member (v : V2Fields F) : Key → Bool × Json D
  | .forgetScore => (!nf.isZero v.forgetScore, ofFloat nf v.forgetScore)
  | .gateDecision => (v.gateDecision ≠ toByte GateDecision.accepted, .int v.gateDecision.toNat)
  | .lastGcVisit => (v.lastGcVisit ≠ 0, .int v.lastGcVisit.toNat)
  | .layer => (v.hasV2 nf, .int v.layer.toNat)
  | .lineageOp => (v.lineageOp ≠ toByte LineageOp.none, .int v.lineageOp.toNat)
  | .lineageParents => (v.lineageParents ≠ [], .arr (v.lineageParents.map fun p => .int p.toNat))
  | .marginalValue => (!nf.isZero v.marginalValue, ofFloat nf v.marginalValue)
  | .resurrectionCount => (v.resurrectionCount ≠ 0, .int v.resurrectionCount.toNat)
  | .sourceTier => (v.sourceTier ≠ toByte SourceTier.inference, .int v.sourceTier.toNat)
  | .user => (v.hasUser, ofUser v.userMetadata)

/-- Read a member, if its value can be read. -/
def read : Key → Json D → V2Fields F → Option (V2Fields F)
  | .layer, j, v => (toIntOrBool nf j).map fun n => { v with layer := UInt8.ofInt n }
  | .lineageParents, j, v => (toParents nf j).map fun ps => { v with lineageParents := ps }
  | .lineageOp, j, v => (toIntOrBool nf j).map fun n => { v with lineageOp := UInt8.ofInt n }
  | .sourceTier, j, v => (toIntOrBool nf j).map fun n => { v with sourceTier := UInt8.ofInt n }
  | .gateDecision, j, v => (toIntOrBool nf j).map fun n => { v with gateDecision := UInt8.ofInt n }
  | .marginalValue, j, v => (toFloat nf j).map fun x => { v with marginalValue := x }
  | .forgetScore, j, v => (toFloat nf j).map fun x => { v with forgetScore := x }
  | .lastGcVisit, j, v => (toIntOrBool nf j).map fun n => { v with lastGcVisit := UInt32.ofInt n }
  | .resurrectionCount, j, v => (toIntOrBool nf j).map fun n => { v with resurrectionCount := UInt8.ofInt n }
  | .user, j, v => some { v with userMetadata := toUser nf v.userMetadata j }

end V2Fields

/-- The members in the order in which they are read. -/
def Key.reading : List Key :=
  [.layer, .lineageParents, .lineageOp, .sourceTier, .gateDecision, .marginalValue, .forgetScore, .lastGcVisit,
    .resurrectionCount, .user]

variable [Zero F]

/-- The fields that the metadata give: those before a member that cannot be
read, and none if the metadata are no JSON. -/
def V2Fields.decode (metadata : Text) : V2Fields F :=
  match nf.text.parse metadata with
  | some j => Members.readAll (fun k => j.find k.text) (V2Fields.read nf) Key.reading .fresh
  | none => .fresh

end Metadata

/-! ### Records -/

structure RawRecord (F : Type) extends V2Fields F where
  memoryId : UInt64 := 0
  userId : Text := []
  agentId : Text := []
  scope : UInt8 := toByte MemoryScope.private
  memoryType : UInt8 := toByte MemoryType.ephemeral
  tier : UInt8 := toByte MemoryTier.working
  phase : UInt8 := toByte MemoryPhase.active
  confidenceLevel : UInt8 := toByte Confidence.inferred
  confidenceScore : F
  flags : UInt16 := RecordFlags.ALIVE
  importance : F
  accessCount : UInt32 := 0
  memVersion : UInt32 := 1
  parentId : UInt64 := 0
  createdAt : UInt32 := 0
  lastAccessed : UInt32 := 0
  sourceTurn : UInt16 := 0
  embedding : List F := []
  content : Text := []
  metadata : Text := []

namespace RawRecord

variable {F D : Type} (nf : Numbers F D) (crc : List UInt8 → UInt32)

/-- The metadata that are written. -/
def effectiveMetadata (r : RawRecord F) : Text :=
  if r.hasV2 nf ∨ r.hasUser then nf.text.dump (.obj (membersOf (r.member nf) Key.all)) else r.metadata

def header (r : RawRecord F) : RecordHeader where
  magic := MAGIC
  version := 2
  flags := r.flags
  memoryId := r.memoryId
  scope := r.scope
  memoryType := r.memoryType
  tier := r.tier
  phase := r.phase
  confidenceLevel := r.confidenceLevel
  importance := nf.toBits r.importance
  confidenceScore := nf.toBits r.confidenceScore
  accessCount := r.accessCount
  memVersion := r.memVersion
  parentId := r.parentId
  createdAt := r.createdAt
  lastAccessed := r.lastAccessed
  embeddingDim := UInt16.ofNat (min r.embedding.length MAX_SIZE)
  contentLen := UInt16.ofNat (min r.content.length MAX_SIZE)
  metadataLen := UInt16.ofNat (min (r.effectiveMetadata nf).length MAX_SIZE)
  sourceTurn := r.sourceTurn

def payload (r : RawRecord F) : List UInt8 :=
  payloadOf nf (r.header nf) r.userId r.agentId r.embedding r.content (r.effectiveMetadata nf)

def serialize (r : RawRecord F) : List UInt8 := r.payload nf ++ toLE 4 (crc (r.payload nf)).toNat

/-! Reading: the checks of the header, the pass that probes the lengths of the
strings, and the one that reads. -/

def refused {α : Type} (message : String) : Checked Fault α := .error (.thrown ⟨.corruptedData, message⟩)

def validate (h : RecordHeader) : Checked Fault Unit :=
  if h.magic ≠ MAGIC then refused "bad magic number"
  else if h.version ≠ 2 ∧ h.version ≠ 1 then refused ("unsupported version: " ++ toString h.version.toNat)
  else if h.version = 2 ∧ isByte MemoryScope h.scope = false then refused "invalid scope value"
  else if h.version = 2 ∧ isByte MemoryType h.memoryType = false then refused "invalid memory_type value"
  else if h.version = 2 ∧ isByte MemoryTier h.tier = false then refused "invalid tier value"
  else if isByte MemoryPhase h.phase = false then refused "invalid phase value"
  else .ok ()

/-- The size of the strings with their lengths. -/
def varstrSize (h : RecordHeader) (data : List UInt8) : Checked Fault ℕ :=
  if h.version = 2 then
    if data.length < HEADER_SIZE + 2 then refused "data too small for user_id length"
    else do
      within data.length HEADER_SIZE 2
      let probe := HEADER_SIZE + 2 + field data HEADER_SIZE 2
      if data.length < probe + 2 then refused "data too small for agent_id length"
      else do
        within data.length probe 2
        .ok (probe + 2 + field data probe 2 - HEADER_SIZE)
  else .ok 0

/-- Read bytes, if there are any to read. -/
def readBytes (data : List UInt8) (offset n : ℕ) : Checked Fault Text :=
  if n = 0 then .ok []
  else do
    within data.length offset n
    .ok (slice data offset n)

/-- Read a string with its length in front, and where it ends. -/
def readString (data : List UInt8) (offset : ℕ) : Checked Fault (Text × ℕ) := do
  within data.length offset 2
  let s ← readBytes data (offset + 2) (field data offset 2)
  .ok (s, offset + 2 + field data offset 2)

/-- The user, the agent, and where they end. -/
def readStrings (h : RecordHeader) (data : List UInt8) : Checked Fault (Text × Text × ℕ) :=
  if h.version = 2 then do
    let userId ← readString data HEADER_SIZE
    let agentId ← readString data userId.2
    .ok (userId.1, agentId.1, agentId.2)
  else .ok (Utf8.bytes "anonymous", Utf8.bytes "default", HEADER_SIZE)

variable [Zero F]

/-- The record of a header and of the parts after it. -/
def ofParts (h : RecordHeader) (userId agentId : Text) (embedding : List F) (content metadata : Text) : RawRecord F :=
  { V2Fields.decode nf metadata with
    memoryId := h.memoryId
    userId := userId
    agentId := agentId
    scope := if h.version = 2 then h.scope else toByte MemoryScope.private
    memoryType := if h.version = 2 then h.memoryType else toByte MemoryType.ephemeral
    tier := if h.version = 2 then h.tier else toByte MemoryTier.working
    phase := h.phase
    confidenceLevel := if h.version = 2 then h.confidenceLevel else toByte Confidence.inferred
    confidenceScore := if h.version = 2 then nf.ofBits h.confidenceScore else nf.ofBits 0x3F000000
    flags := h.flags
    importance := nf.ofBits h.importance
    accessCount := h.accessCount
    memVersion := h.memVersion
    parentId := h.parentId
    createdAt := h.createdAt
    lastAccessed := h.lastAccessed
    sourceTurn := h.sourceTurn
    embedding := embedding
    content := content
    metadata := metadata }

def readRecord (h : RecordHeader) (data : List UInt8) : Checked Fault (RawRecord F) := do
  let strings ← readStrings h data
  let offset := strings.2.2
  let embedding ← readBytes data offset (4 * h.embeddingDim.toNat)
  let offset := offset + 4 * h.embeddingDim.toNat
  let content ← readBytes data offset h.contentLen.toNat
  let offset := offset + h.contentLen.toNat
  let metadata ← readBytes data offset h.metadataLen.toNat
  .ok (ofParts nf h strings.1 strings.2.1 (readFloats nf h.embeddingDim.toNat embedding) content metadata)

def deserialize (data : List UInt8) : Checked Fault (RawRecord F) :=
  if data.length < HEADER_SIZE + 4 then refused "data too small for header + CRC"
  else do
    within data.length 0 HEADER_SIZE
    let h := RecordHeader.ofBytes data
    validate h
    let varstr ← varstrSize h data
    let payload := HEADER_SIZE + (varstr + 4 * h.embeddingDim.toNat + h.contentLen.toNat + h.metadataLen.toNat)
    if data.length < payload + 4 then refused "data too small for declared body"
    else do
      within data.length payload 4
      within data.length 0 payload
      if UInt32.ofNat (field data payload 4) ≠ crc (data.take payload) then
        .error (.thrown ⟨.crcMismatch, "CRC32C checksum mismatch"⟩)
      else readRecord nf h data

/-! ### No read leaves the input -/

/-- Where the strings of a record end. -/
def stringsEnd (h : RecordHeader) (data : List UInt8) : ℕ :=
  if h.version = 2 then
    HEADER_SIZE + 2 + field data HEADER_SIZE 2 + 2 + field data (HEADER_SIZE + 2 + field data HEADER_SIZE 2) 2
  else HEADER_SIZE

/-- How many bytes the checksum is over. -/
def payloadSize (h : RecordHeader) (data : List UInt8) : ℕ :=
  stringsEnd h data + 4 * h.embeddingDim.toNat + h.contentLen.toNat + h.metadataLen.toNat

/-- The record of a header and of the bytes after it. -/
def recordOf (h : RecordHeader) (data : List UInt8) : RawRecord F :=
  let uidLen := field data HEADER_SIZE 2
  let agent := HEADER_SIZE + 2 + uidLen
  let offset := stringsEnd h data
  let content := offset + 4 * h.embeddingDim.toNat
  ofParts nf h
    (if h.version = 2 then slice data (HEADER_SIZE + 2) uidLen else Utf8.bytes "anonymous")
    (if h.version = 2 then slice data (agent + 2) (field data agent 2) else Utf8.bytes "default")
    (readFloats nf h.embeddingDim.toNat (data.drop offset))
    (slice data content h.contentLen.toNat)
    (slice data (content + h.contentLen.toNat) h.metadataLen.toNat)

/-- The checks before a record is read, and `a` if all are passed. -/
def verified {α : Type} (data : List UInt8) (a : α) : Except Fault α :=
  let h := RecordHeader.ofBytes data
  let v2 : Bool := h.version = 2
  let uidLen := field data HEADER_SIZE 2
  let aidLen := field data (HEADER_SIZE + 2 + uidLen) 2
  let strings := if v2 then 2 + uidLen + 2 + aidLen else 0
  let size := HEADER_SIZE + strings + 4 * h.embeddingDim.toNat + h.contentLen.toNat + h.metadataLen.toNat
  if data.length < HEADER_SIZE + 4 then corrupted "data too small for header + CRC"
  else if h.magic ≠ MAGIC then corrupted "bad magic number"
  else if h.version ≠ 2 ∧ h.version ≠ 1 then corrupted ("unsupported version: " ++ toString h.version.toNat)
  else if v2 ∧ isByte MemoryScope h.scope = false then corrupted "invalid scope value"
  else if v2 ∧ isByte MemoryType h.memoryType = false then corrupted "invalid memory_type value"
  else if v2 ∧ isByte MemoryTier h.tier = false then corrupted "invalid tier value"
  else if isByte MemoryPhase h.phase = false then corrupted "invalid phase value"
  else if v2 ∧ data.length < HEADER_SIZE + 2 then corrupted "data too small for user_id length"
  else if v2 ∧ data.length < HEADER_SIZE + 2 + uidLen + 2 then corrupted "data too small for agent_id length"
  else if data.length < size + 4 then corrupted "data too small for declared body"
  else if UInt32.ofNat (field data size 4) ≠ crc (data.take size) then
    .error ⟨.crcMismatch, "CRC32C checksum mismatch"⟩
  else .ok a

theorem deserialize_eq_verified (data : List UInt8) :
    Core.deserialize nf crc data = verified crc data (Core.readRecord nf (RecordHeader.ofBytes data) data) := rfl

variable {nf crc} {data : List UInt8} {h : RecordHeader}

theorem readBytes_of_le {offset n : ℕ} (hle : offset + n ≤ data.length) :
    readBytes data offset n = .ok (slice data offset n) := by
  unfold readBytes
  by_cases hn : n = 0
  · rw [if_pos hn, hn, slice, List.take_zero]
  · rw [if_neg hn, Checked.within_of_le hle, Checked.ok_bind]

theorem readString_of_le {offset : ℕ} (hle : offset + 2 + field data offset 2 ≤ data.length) :
    readString data offset =
      .ok (slice data (offset + 2) (field data offset 2), offset + 2 + field data offset 2) := by
  unfold readString
  rw [Checked.within_of_le (by omega), Checked.ok_bind, readBytes_of_le hle, Checked.ok_bind]

omit [Zero F] in
theorem readFloats_take : ∀ (n : ℕ) (bs : List UInt8), readFloats nf n (bs.take (4 * n)) = readFloats nf n bs
  | 0, _ => rfl
  | n + 1, bs => by
    have hfield : field (bs.take (4 * (n + 1))) 0 4 = field bs 0 4 := by
      show field (slice bs 0 (4 * (n + 1))) 0 4 = field bs 0 4
      exact field_slice (by omega)
    have hdrop : (bs.take (4 * (n + 1))).drop 4 = (bs.drop 4).take (4 * n) := by
      rw [List.drop_take]
      rfl
    rw [readFloats, readFloats, hfield, hdrop, readFloats_take n]

/-- **Reading a record stays in the payload.** -/
theorem readRecord_eq (hle : payloadSize h data ≤ data.length) : readRecord nf h data = .ok (recordOf nf h data) := by
  have hend : stringsEnd h data + 4 * h.embeddingDim.toNat + h.contentLen.toNat + h.metadataLen.toNat ≤ data.length :=
    hle
  have hstrings : readStrings h data = .ok
      (if h.version = 2 then slice data (HEADER_SIZE + 2) (field data HEADER_SIZE 2) else Utf8.bytes "anonymous",
        if h.version = 2 then slice data (HEADER_SIZE + 2 + field data HEADER_SIZE 2 + 2)
          (field data (HEADER_SIZE + 2 + field data HEADER_SIZE 2) 2) else Utf8.bytes "default",
        stringsEnd h data) := by
    unfold readStrings
    unfold stringsEnd at hend ⊢
    by_cases hv : h.version = 2
    · rw [if_pos hv] at hend
      rw [if_pos hv, if_pos hv, if_pos hv, if_pos hv, readString_of_le (by omega), Checked.ok_bind,
        readString_of_le (by dsimp only; omega), Checked.ok_bind]
    · rw [if_neg hv, if_neg hv, if_neg hv, if_neg hv]
  unfold readRecord recordOf
  rw [hstrings, Checked.ok_bind]
  dsimp only
  rw [readBytes_of_le (by omega), Checked.ok_bind, readBytes_of_le (by omega), Checked.ok_bind,
    readBytes_of_le (by omega), Checked.ok_bind]
  congr 2
  exact readFloats_take _ _

omit [Zero F] in
/-- The size is the one that the checks compute. -/
theorem payloadSize_eq (h : RecordHeader) (data : List UInt8) : payloadSize h data =
    HEADER_SIZE + (if h.version = 2 then 2 + field data HEADER_SIZE 2 + 2 +
      field data (HEADER_SIZE + 2 + field data HEADER_SIZE 2) 2 else 0) +
      4 * h.embeddingDim.toNat + h.contentLen.toNat + h.metadataLen.toNat := by
  unfold payloadSize stringsEnd
  split <;> omega

omit [Zero F] in
theorem le_stringsEnd (h : RecordHeader) (data : List UInt8) : HEADER_SIZE ≤ stringsEnd h data := by
  unfold stringsEnd
  split <;> omega

/-- The probing pass ends where the strings do. -/
theorem varstrSize_eq (huser : ¬ (h.version = 2 ∧ data.length < HEADER_SIZE + 2))
    (hagent : ¬ (h.version = 2 ∧ data.length < HEADER_SIZE + 2 + field data HEADER_SIZE 2 + 2)) :
    varstrSize h data = .ok (stringsEnd h data - HEADER_SIZE) := by
  unfold varstrSize stringsEnd
  by_cases hv : h.version = 2
  · have huser : ¬ data.length < HEADER_SIZE + 2 := fun hlt => huser ⟨hv, hlt⟩
    have hagent : ¬ data.length < HEADER_SIZE + 2 + field data HEADER_SIZE 2 + 2 := fun hlt => hagent ⟨hv, hlt⟩
    rw [if_pos hv, if_pos hv, if_neg huser, Checked.within_of_le (by omega), Checked.ok_bind]
    dsimp only
    rw [if_neg hagent, Checked.within_of_le (by omega), Checked.ok_bind]
  · rw [if_neg hv, if_neg hv, Nat.sub_self]

/-- **No read leaves the input**, neither in the pass that probes the lengths nor
in the one that reads, and what comes out is what the checks say. -/
theorem deserialize_eq (data : List UInt8) : deserialize nf crc data =
    Checked.ofExcept (verified crc data (recordOf nf (RecordHeader.ofBytes data) data)) := by
  have hsize := payloadSize_eq (RecordHeader.ofBytes data) data
  unfold deserialize verified
  dsimp only
  by_cases hlong : data.length < HEADER_SIZE + 4
  · rw [if_pos hlong, if_pos hlong]
    rfl
  rw [if_neg hlong, if_neg hlong, Checked.within_of_le (by omega), Checked.ok_bind]
  generalize RecordHeader.ofBytes data = h at hsize ⊢
  unfold validate
  by_cases hmagic : h.magic ≠ MAGIC
  · rw [if_pos hmagic, if_pos hmagic]
    rfl
  rw [if_neg hmagic, if_neg hmagic]
  by_cases hversion : h.version ≠ 2 ∧ h.version ≠ 1
  · rw [if_pos hversion, if_pos hversion]
    rfl
  rw [if_neg hversion, if_neg hversion]
  simp only [decide_eq_true_eq]
  by_cases hscope : h.version = 2 ∧ isByte MemoryScope h.scope = false
  · rw [if_pos hscope, if_pos hscope]
    rfl
  rw [if_neg hscope, if_neg hscope]
  by_cases htype : h.version = 2 ∧ isByte MemoryType h.memoryType = false
  · rw [if_pos htype, if_pos htype]
    rfl
  rw [if_neg htype, if_neg htype]
  by_cases htier : h.version = 2 ∧ isByte MemoryTier h.tier = false
  · rw [if_pos htier, if_pos htier]
    rfl
  rw [if_neg htier, if_neg htier]
  by_cases hphase : isByte MemoryPhase h.phase = false
  · rw [if_pos hphase, if_pos hphase]
    rfl
  rw [if_neg hphase, if_neg hphase, Checked.ok_bind]
  -- the strings fit, or one of their lengths does not
  by_cases huser : h.version = 2 ∧ data.length < HEADER_SIZE + 2
  · rw [if_pos huser, varstrSize, if_pos huser.1, if_pos huser.2]
    rfl
  rw [if_neg huser]
  by_cases hagent : h.version = 2 ∧ data.length < HEADER_SIZE + 2 + field data HEADER_SIZE 2 + 2
  · rw [if_pos hagent, varstrSize, if_pos hagent.1, if_neg (fun hlt => huser ⟨hagent.1, hlt⟩),
      Checked.within_of_le (by omega), Checked.ok_bind]
    dsimp only
    rw [if_pos hagent.2]
    rfl
  rw [if_neg hagent, varstrSize_eq huser hagent, Checked.ok_bind, ← hsize]
  have hpayload : HEADER_SIZE + (stringsEnd h data - HEADER_SIZE + 4 * h.embeddingDim.toNat + h.contentLen.toNat +
      h.metadataLen.toNat) = payloadSize h data := by
    have hend := le_stringsEnd h data
    unfold payloadSize
    omega
  rw [hpayload]
  by_cases hbody : data.length < payloadSize h data + 4
  · rw [if_pos hbody, if_pos hbody]
    rfl
  rw [if_neg hbody, if_neg hbody, Checked.within_of_le (by omega), Checked.ok_bind, Checked.within_of_le (by omega),
    Checked.ok_bind]
  by_cases hcrc : UInt32.ofNat (field data (payloadSize h data) 4) ≠ crc (data.take (payloadSize h data))
  · rw [if_pos hcrc, if_pos hcrc]
    rfl
  · rw [if_neg hcrc, if_neg hcrc, readRecord_eq (by omega)]
    rfl

/-- The checks before a record is read are passed: the lengths sum to within the
input and the checksum is that of what they span. -/
structure Accepted (crc : List UInt8 → UInt32) (data : List UInt8) : Prop where
  long : HEADER_SIZE + 4 ≤ data.length
  magic : (RecordHeader.ofBytes data).magic = MAGIC
  version : (RecordHeader.ofBytes data).version = 2 ∨ (RecordHeader.ofBytes data).version = 1
  scope : (RecordHeader.ofBytes data).version = 2 → isByte MemoryScope (RecordHeader.ofBytes data).scope = true
  memoryType : (RecordHeader.ofBytes data).version = 2 →
    isByte MemoryType (RecordHeader.ofBytes data).memoryType = true
  tier : (RecordHeader.ofBytes data).version = 2 → isByte MemoryTier (RecordHeader.ofBytes data).tier = true
  phase : isByte MemoryPhase (RecordHeader.ofBytes data).phase = true
  body : payloadSize (RecordHeader.ofBytes data) data + 4 ≤ data.length
  checksum : UInt32.ofNat (field data (payloadSize (RecordHeader.ofBytes data) data) 4) =
    crc (data.take (payloadSize (RecordHeader.ofBytes data) data))

theorem else_eq_ok_iff {α : Type} {c : Prop} [Decidable c] {e : Fault} {x : Except Fault α} {a : α} :
    (if c then .error e else x) = .ok a ↔ ¬ c ∧ x = .ok a := by
  by_cases hc : c
  · rw [if_pos hc]
    exact iff_of_false (fun h => by cases h) fun h => h.1 hc
  · rw [if_neg hc]
    exact (and_iff_right hc).symm

theorem verified_eq_ok_iff {α : Type} {a b : α} : verified crc data a = .ok b ↔ Accepted crc data ∧ a = b := by
  have hsize := payloadSize_eq (RecordHeader.ofBytes data) data
  have hend := le_stringsEnd (RecordHeader.ofBytes data) data
  have hstrings : (RecordHeader.ofBytes data).version = 2 → HEADER_SIZE + 2 + field data HEADER_SIZE 2 + 2 ≤
      payloadSize (RecordHeader.ofBytes data) data := by
    intro hv
    rw [hsize, if_pos hv]
    omega
  unfold verified corrupted
  simp only [decide_eq_true_eq, ← hsize, else_eq_ok_iff, Except.ok.injEq]
  constructor
  · rintro ⟨hlong, hmagic, hversion, hscope, htype, htier, hphase, -, -, hbody, hcrc, hab⟩
    refine ⟨⟨Nat.not_lt.mp hlong, not_not.mp hmagic, ?_, ?_, ?_, ?_, ?_, Nat.not_lt.mp hbody, not_not.mp hcrc⟩, hab⟩
    · by_contra hv
      exact hversion (not_or.mp hv)
    · exact fun hv => Bool.not_eq_false _ |>.mp fun hs => hscope ⟨hv, hs⟩
    · exact fun hv => Bool.not_eq_false _ |>.mp fun hs => htype ⟨hv, hs⟩
    · exact fun hv => Bool.not_eq_false _ |>.mp fun hs => htier ⟨hv, hs⟩
    · exact Bool.not_eq_false _ |>.mp hphase
  · rintro ⟨h, hab⟩
    have hbody := h.body
    refine ⟨Nat.not_lt.mpr h.long, not_not.mpr h.magic, ?_, ?_, ?_, ?_, ?_, ?_, ?_, Nat.not_lt.mpr hbody,
      not_not.mpr h.checksum, hab⟩
    · exact fun hv => h.version.elim hv.1 hv.2
    · exact fun hs => by simp [h.scope hs.1] at hs
    · exact fun hs => by simp [h.memoryType hs.1] at hs
    · exact fun hs => by simp [h.tier hs.1] at hs
    · simp [h.phase]
    · rintro ⟨hv, hlt⟩
      have := hstrings hv
      omega
    · rintro ⟨hv, hlt⟩
      have := hstrings hv
      omega

theorem verified_map {α β : Type} (φ : α → β) (a : α) : verified crc data (φ a) = (verified crc data a).map φ := by
  unfold verified corrupted
  simp only [apply_ite (Except.map φ)]
  rfl

/-- What is read, and from what. -/
theorem deserialize_eq_ok_iff {r : RawRecord F} : deserialize nf crc data = .ok r ↔
    Accepted crc data ∧ recordOf nf (RecordHeader.ofBytes data) data = r := by
  rw [deserialize_eq, ← verified_eq_ok_iff]
  cases verified crc data (recordOf nf (RecordHeader.ofBytes data) data) with
  | ok a => exact ⟨fun h => congrArg Except.ok (Except.ok.inj h), fun h => congrArg Except.ok (Except.ok.inj h)⟩
  | error e => exact iff_of_false (fun h => by cases h) (fun h => by cases h)

end RawRecord

end Core
end Amind
