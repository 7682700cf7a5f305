/-
# Serialized records

A record is serialized as a header of 64 bytes, its user and agent with their
lengths in front, its embedding, its content, its metadata and a checksum. The
metadata are a JSON object of the fields that have no place in the header and
of what the user gave. Every length has 16 bits: what is longer is cut.

`deserialize_serialize` says what comes back of a record: everything in the
header, and the body as `clip` has it. The text of the metadata is cut like
everything else, and then it cannot be read at all (`clip_eq`).
-/
import Mathlib.Data.List.Infix
import Amind.Core.MemoryRecord
import Amind.Lib.JsonIndent
import Amind.Lib.LittleEndian

namespace Amind
namespace Core

open LittleEndian Json

/-! ### Numbers -/

/-- The program's floats: 32 bits in memory, doubles (`D`) in a JSON text. -/
structure Numbers (F D : Type) where
  toBits : F → UInt32
  ofBits : UInt32 → F
  isZero : F → Bool
  /-- The double of a float, if it is finite. -/
  widen : F → Option D
  narrow : D → F
  ofInt : ℤ → F
  /-- The integral part of a double. -/
  trunc : D → ℤ
  text : Library D

/-- What the conversions are relied upon for. -/
structure Numbers.Lawful {F D : Type} [Zero F] (nf : Numbers F D) : Prop where
  ofBits_toBits : ∀ x, nf.ofBits (nf.toBits x) = x
  isZero_zero : nf.isZero 0 = true
  narrow_widen : ∀ x d, nf.widen x = some d → nf.narrow d = x
  text : nf.text.Lawful

/-- Floats as their bits, for texts in which all numbers are whole. -/
def Numbers.whole : Numbers UInt32 Empty where
  toBits := id
  ofBits := id
  isZero x := x = 0
  widen _ := none
  narrow := Empty.elim
  ofInt := UInt32.ofInt
  trunc := Empty.elim
  text := Json.integers

/-- An enumeration of which each constructor has a byte, its position. -/
class Coded (α : Type) [DecidableEq α] where
  values : List α
  complete : ∀ a, a ∈ values
  short : values.length ≤ 256

namespace Coded

variable {α : Type} [DecidableEq α] [Coded α]

def toByte (a : α) : UInt8 := UInt8.ofNat ((values (α := α)).idxOf a)

/-- Whether a byte is one of a constructor. -/
def isByte (α : Type) [DecidableEq α] [Coded α] (b : UInt8) : Bool := b.toNat < (values (α := α)).length

/-- The constructor of a byte, `d` for one that has none. -/
def ofByte (d : α) (b : UInt8) : α := ((values (α := α))[b.toNat]?).getD d

theorem toNat_toByte (a : α) : (toByte a).toNat = (values (α := α)).idxOf a := by
  have hlt : (values (α := α)).idxOf a < 256 := lt_of_lt_of_le (List.idxOf_lt_length_of_mem (complete a)) short
  rw [toByte, UInt8.toNat_ofNat', Nat.mod_eq_of_lt hlt]

@[simp] theorem isByte_toByte (a : α) : isByte α (toByte a) = true := by
  rw [isByte, toNat_toByte]
  exact decide_eq_true (List.idxOf_lt_length_of_mem (complete a))

@[simp] theorem ofByte_toByte (d a : α) : ofByte d (toByte a) = a := by
  rw [ofByte, toNat_toByte, List.getElem?_eq_getElem (List.idxOf_lt_length_of_mem (complete a)),
    List.getElem_idxOf]
  rfl

end Coded

instance : Coded MemoryScope := ⟨[.private, .agentShared], fun a => by cases a <;> decide, by decide⟩

instance : Coded MemoryType :=
  ⟨[.userProfile, .feedback, .domainKnowledge, .reference, .skill, .ephemeral], fun a => by cases a <;> decide,
    by decide⟩

instance : Coded MemoryTier := ⟨[.working, .shortTerm, .longTerm], fun a => by cases a <;> decide, by decide⟩

instance : Coded MemoryPhase :=
  ⟨[.active, .versioned, .archived, .tombstone, .invalidated], fun a => by cases a <;> decide, by decide⟩

instance : Coded Confidence := ⟨[.verified, .inferred, .stale, .conflicted], fun a => by cases a <;> decide, by decide⟩

instance : Coded MemoryLayer := ⟨[.raw, .derived], fun a => by cases a <;> decide, by decide⟩

instance : Coded LineageOp :=
  ⟨[.none, .summarize, .aggregate, .infer, .distill], fun a => by cases a <;> decide, by decide⟩

instance : Coded SourceTier := ⟨[.assertion, .behavioral, .inference], fun a => by cases a <;> decide, by decide⟩

instance : Coded GateDecision := ⟨[.accepted, .rejected, .deferred], fun a => by cases a <;> decide, by decide⟩

/-! ### Metadata -/

/-- The members of the metadata, in the order of their keys. -/
inductive Key
  | forgetScore
  | gateDecision
  | lastGcVisit
  | layer
  | lineageOp
  | lineageParents
  | marginalValue
  | resurrectionCount
  | sourceTier
  | user
  deriving DecidableEq

namespace Key

def all : List Key :=
  [forgetScore, gateDecision, lastGcVisit, layer, lineageOp, lineageParents, marginalValue, resurrectionCount,
    sourceTier, user]

def text : Key → Utf8Text
  | forgetScore => ⟨Utf8.bytes "forget_score", by decide⟩
  | gateDecision => ⟨Utf8.bytes "gate_decision", by decide⟩
  | lastGcVisit => ⟨Utf8.bytes "last_gc_visit", by decide⟩
  | layer => ⟨Utf8.bytes "layer", by decide⟩
  | lineageOp => ⟨Utf8.bytes "lineage_op", by decide⟩
  | lineageParents => ⟨Utf8.bytes "lineage_parents", by decide⟩
  | marginalValue => ⟨Utf8.bytes "marginal_value", by decide⟩
  | resurrectionCount => ⟨Utf8.bytes "resurrection_count", by decide⟩
  | sourceTier => ⟨Utf8.bytes "source_tier", by decide⟩
  | user => ⟨Utf8.bytes "user", by decide⟩

theorem mem_all (k : Key) : k ∈ all := by cases k <;> decide

theorem ascending_all : (all.map text).Pairwise (· < ·) := by decide

theorem text_injective : Function.Injective text := by
  intro k k' h
  have hnodup : (all.map text).Nodup := ascending_all.imp ne_of_lt
  exact List.inj_on_of_nodup_map hnodup (mem_all k) (mem_all k') h

end Key

section Metadata

variable {F D : Type} (nf : Numbers F D)

/-- The body has fields that are kept with the metadata. -/
def Body.hasV2 (b : Body F) : Bool :=
  b.layer ≠ .raw ∨ b.lineageParents ≠ [] ∨ b.lineageOp ≠ .none ∨ b.sourceTier ≠ .inference ∨
    b.gateDecision ≠ .accepted ∨ nf.isZero b.marginalValue = false ∨ nf.isZero b.forgetScore = false ∨
    b.lastGcVisit ≠ 0 ∨ b.resurrectionCount ≠ 0

def Body.hasUser (b : Body F) : Bool := b.userMetadata.entries ≠ []

/-- A float. One that is not finite is dumped as null. -/
def ofFloat (x : F) : Json D :=
  match nf.widen x with
  | some d => .float d
  | none => .null

def ofUser (m : StringMap) : Json D := .obj (m.entries.map fun e => (e.1, .str e.2))

/-- Whether a member is there, and its value. -/
def Body.member (b : Body F) : Key → Bool × Json D
  | .forgetScore => (!nf.isZero b.forgetScore, ofFloat nf b.forgetScore)
  | .gateDecision => (b.gateDecision ≠ .accepted, .int (Coded.toByte b.gateDecision).toNat)
  | .lastGcVisit => (b.lastGcVisit ≠ 0, .int b.lastGcVisit.toNat)
  | .layer => (b.hasV2 nf, .int (Coded.toByte b.layer).toNat)
  | .lineageOp => (b.lineageOp ≠ .none, .int (Coded.toByte b.lineageOp).toNat)
  | .lineageParents => (b.lineageParents ≠ [], .arr (b.lineageParents.map fun p => .int p.toNat))
  | .marginalValue => (!nf.isZero b.marginalValue, ofFloat nf b.marginalValue)
  | .resurrectionCount => (b.resurrectionCount ≠ 0, .int b.resurrectionCount.toNat)
  | .sourceTier => (b.sourceTier ≠ .inference, .int (Coded.toByte b.sourceTier).toNat)
  | .user => (b.hasUser, ofUser b.userMetadata)

/-- The members of some keys, those that are there. -/
def membersOf (m : Key → Bool × Json D) (ks : List Key) : List (Utf8Text × Json D) :=
  (ks.filter fun k => (m k).1).map fun k => (k.text, (m k).2)

def Body.members (b : Body F) (ks : List Key) : List (Utf8Text × Json D) := membersOf (b.member nf) ks

/-- The metadata before they are cut. -/
def Body.metadata (b : Body F) : Text :=
  if b.hasV2 nf ∨ b.hasUser then nf.text.dump (.obj (b.members nf Key.all)) else []

/-! What a value is read as: integers wrap around, and where the type is not one
of the library's own a truth value counts as a number. -/

def toInt : Json D → Option ℤ
  | .int n => some n
  | .float x => some (nf.trunc x)
  | _ => none

def toIntOrBool : Json D → Option ℤ
  | .bool b => some (if b then 1 else 0)
  | j => toInt nf j

def toFloat : Json D → Option F
  | .int n => some (nf.ofInt n)
  | .float x => some (nf.narrow x)
  | .bool b => some (nf.ofInt (if b then 1 else 0))
  | _ => none

def toParents : Json D → Option (List UInt64)
  | .arr js => js.mapM fun j => (toInt nf j).map UInt64.ofInt
  | _ => none

/-- What the user gave. Values that are not strings are kept as their text. -/
def toUser (m : StringMap) : Json D → StringMap
  | .obj ms => ms.foldl (fun m e => ⟨Keyed.insertKey e.1 (asText e.2) m.entries, m.sorted.insertKey _ _⟩) m
  | _ => m
where
  asText : Json D → Utf8Text
    | .str s => s
    | j => if h : Utf8.valid (nf.text.dump j) = true then ⟨nf.text.dump j, h⟩ else ⟨[], Utf8.valid_nil⟩

/-- A member of the metadata: its key and how it is read. -/
abbrev Reader (F D : Type) := Key × (Json D → Body F → Option (Body F))

def readers : List (Reader F D) :=
  [(.layer, fun j b => (toIntOrBool nf j).map fun n => { b with layer := Coded.ofByte .raw (UInt8.ofInt n) }),
   (.lineageParents, fun j b => (toParents nf j).map fun ps => { b with lineageParents := ps }),
   (.lineageOp, fun j b => (toIntOrBool nf j).map fun n => { b with lineageOp := Coded.ofByte .none (UInt8.ofInt n) }),
   (.sourceTier, fun j b =>
      (toIntOrBool nf j).map fun n => { b with sourceTier := Coded.ofByte .inference (UInt8.ofInt n) }),
   (.gateDecision, fun j b =>
      (toIntOrBool nf j).map fun n => { b with gateDecision := Coded.ofByte .accepted (UInt8.ofInt n) }),
   (.marginalValue, fun j b => (toFloat nf j).map fun x => { b with marginalValue := x }),
   (.forgetScore, fun j b => (toFloat nf j).map fun x => { b with forgetScore := x }),
   (.lastGcVisit, fun j b => (toIntOrBool nf j).map fun n => { b with lastGcVisit := UInt32.ofInt n }),
   (.resurrectionCount, fun j b => (toIntOrBool nf j).map fun n => { b with resurrectionCount := UInt8.ofInt n }),
   (.user, fun j b => some { b with userMetadata := toUser nf b.userMetadata j })]

/-- Read one member after the other, up to the first that cannot be read. -/
def readMembers {σ : Type} (j : Json D) : List (Key × (Json D → σ → Option σ)) → σ → σ
  | [], b => b
  | (k, f) :: fs, b =>
    match j.find k.text with
    | none => readMembers j fs b
    | some v =>
      match f v b with
      | none => b
      | some b => readMembers j fs b

def readMetadata (text : Text) (b : Body F) : Body F :=
  match nf.text.parse text with
  | some j => readMembers j (readers nf) b
  | none => b

end Metadata

/-! ### Records -/

namespace WireFormat

def MAGIC : UInt32 := 0xAB1D0001
def HEADER_SIZE : ℕ := 64
/-- The most a length of 16 bits counts. -/
def MAX_SIZE : ℕ := 65535

end WireFormat

open WireFormat

/-- The header as it lies in memory. -/
@[ext]
structure RecordHeader where
  magic : UInt32
  version : UInt16
  flags : UInt16
  memoryId : UInt64
  scope : UInt8
  memoryType : UInt8
  tier : UInt8
  phase : UInt8
  confidenceLevel : UInt8
  importance : UInt32
  confidenceScore : UInt32
  accessCount : UInt32
  memVersion : UInt32
  parentId : UInt64
  createdAt : UInt32
  lastAccessed : UInt32
  embeddingDim : UInt16
  contentLen : UInt16
  metadataLen : UInt16
  sourceTurn : UInt16

namespace RecordHeader

/-- The widths and values of the fields; the three bytes after the confidence
are not used. -/
def fields (h : RecordHeader) : List (ℕ × ℕ) :=
  [(4, h.magic.toNat), (2, h.version.toNat), (2, h.flags.toNat), (8, h.memoryId.toNat), (1, h.scope.toNat),
   (1, h.memoryType.toNat), (1, h.tier.toNat), (1, h.phase.toNat), (1, h.confidenceLevel.toNat), (3, 0),
   (4, h.importance.toNat), (4, h.confidenceScore.toNat), (4, h.accessCount.toNat), (4, h.memVersion.toNat),
   (8, h.parentId.toNat), (4, h.createdAt.toNat), (4, h.lastAccessed.toNat), (2, h.embeddingDim.toNat),
   (2, h.contentLen.toNat), (2, h.metadataLen.toNat), (2, h.sourceTurn.toNat)]

/-- The widths alone. -/
def widths : List ℕ := [4, 2, 2, 8, 1, 1, 1, 1, 1, 3, 4, 4, 4, 4, 8, 4, 4, 2, 2, 2, 2]

def toBytes (h : RecordHeader) : List UInt8 := pack h.fields

/-- Copy a header out of a buffer. -/
def ofBytes (bs : List UInt8) : RecordHeader where
  magic := UInt32.ofNat (field bs 0 4)
  version := UInt16.ofNat (field bs 4 2)
  flags := UInt16.ofNat (field bs 6 2)
  memoryId := UInt64.ofNat (field bs 8 8)
  scope := UInt8.ofNat (field bs 16 1)
  memoryType := UInt8.ofNat (field bs 17 1)
  tier := UInt8.ofNat (field bs 18 1)
  phase := UInt8.ofNat (field bs 19 1)
  confidenceLevel := UInt8.ofNat (field bs 20 1)
  importance := UInt32.ofNat (field bs 24 4)
  confidenceScore := UInt32.ofNat (field bs 28 4)
  accessCount := UInt32.ofNat (field bs 32 4)
  memVersion := UInt32.ofNat (field bs 36 4)
  parentId := UInt64.ofNat (field bs 40 8)
  createdAt := UInt32.ofNat (field bs 48 4)
  lastAccessed := UInt32.ofNat (field bs 52 4)
  embeddingDim := UInt16.ofNat (field bs 56 2)
  contentLen := UInt16.ofNat (field bs 58 2)
  metadataLen := UInt16.ofNat (field bs 60 2)
  sourceTurn := UInt16.ofNat (field bs 62 2)

end RecordHeader

/-- What is wrong with bytes that are no record. -/
inductive ErrorCode
  | corruptedData
  | crcMismatch
  deriving DecidableEq, Repr

structure Fault where
  code : ErrorCode
  message : String
  deriving DecidableEq, Repr

section Record

variable {F D : Type} (nf : Numbers F D) (crc : List UInt8 → UInt32)

/-- The header of a record. -/
def MemoryRecord.header (r : MemoryRecord F) : RecordHeader where
  magic := MAGIC
  version := 2
  flags := r.flags
  memoryId := r.memoryId
  scope := Coded.toByte r.scope
  memoryType := Coded.toByte r.memoryType
  tier := Coded.toByte r.tier
  phase := Coded.toByte r.phase
  confidenceLevel := Coded.toByte r.confidenceLevel
  importance := nf.toBits r.importance
  confidenceScore := nf.toBits r.confidenceScore
  accessCount := r.accessCount
  memVersion := r.memVersion
  parentId := r.parentId
  createdAt := r.createdAt
  lastAccessed := r.lastAccessed
  embeddingDim := UInt16.ofNat (min r.embedding.length MAX_SIZE)
  contentLen := UInt16.ofNat (min r.content.length MAX_SIZE)
  metadataLen := UInt16.ofNat (min (r.metadata nf).length MAX_SIZE)
  sourceTurn := r.sourceTurn

/-- A string with its length in front. -/
def writeString (s : Text) : List UInt8 := toLE 2 (min s.length MAX_SIZE) ++ s.take MAX_SIZE

def writeFloats (xs : List F) : List UInt8 := xs.flatMap fun x => toLE 4 (nf.toBits x).toNat

def readFloats : ℕ → List UInt8 → List F
  | 0, _ => []
  | n + 1, bs => nf.ofBits (UInt32.ofNat (field bs 0 4)) :: readFloats n (bs.drop 4)

/-- A header and what follows it, up to the checksum. -/
def payloadOf (h : RecordHeader) (userId agentId : Text) (embedding : List F) (content metadata : Text) : List UInt8 :=
  h.toBytes ++ (writeString userId ++ (writeString agentId ++
    (writeFloats nf (embedding.take MAX_SIZE) ++ (content.take MAX_SIZE ++ metadata.take MAX_SIZE))))

/-- What the checksum is computed over. -/
def MemoryRecord.payload (r : MemoryRecord F) : List UInt8 :=
  payloadOf nf (r.header nf) r.userId r.agentId r.embedding r.content (r.metadata nf)

def MemoryRecord.serialize (r : MemoryRecord F) : List UInt8 := r.payload nf ++ toLE 4 (crc (r.payload nf)).toNat

variable [Zero F]

/-- The record of a header and of the bytes after it. One of the first version
has no user and no agent, and stands in their scope as a private one. -/
def readRecord (h : RecordHeader) (data : List UInt8) : MemoryRecord F :=
  let v2 : Bool := h.version = 2
  let uidLen := if v2 then field data HEADER_SIZE 2 else 0
  let aidLen := if v2 then field data (HEADER_SIZE + 2 + uidLen) 2 else 0
  let offset := if v2 then HEADER_SIZE + 2 + uidLen + 2 + aidLen else HEADER_SIZE
  let content := offset + 4 * h.embeddingDim.toNat
  let body : Body F :=
    { userId := if v2 then slice data (HEADER_SIZE + 2) uidLen else Utf8.bytes "anonymous"
      agentId := if v2 then slice data (HEADER_SIZE + 2 + uidLen + 2) aidLen else Utf8.bytes "default"
      embedding := readFloats nf h.embeddingDim.toNat (data.drop offset)
      content := slice data content h.contentLen.toNat
      marginalValue := 0
      forgetScore := 0 }
  { readMetadata nf (slice data (content + h.contentLen.toNat) h.metadataLen.toNat) body with
    memoryId := h.memoryId
    scope := if v2 then Coded.ofByte .private h.scope else .private
    memoryType := if v2 then Coded.ofByte .ephemeral h.memoryType else .ephemeral
    tier := if v2 then Coded.ofByte .working h.tier else .working
    phase := Coded.ofByte .active h.phase
    confidenceLevel := if v2 then Coded.ofByte .inferred h.confidenceLevel else .inferred
    confidenceScore := if v2 then nf.ofBits h.confidenceScore else nf.ofBits 0x3F000000
    flags := h.flags
    importance := nf.ofBits h.importance
    accessCount := h.accessCount
    memVersion := h.memVersion
    parentId := h.parentId
    createdAt := h.createdAt
    lastAccessed := h.lastAccessed
    sourceTurn := h.sourceTurn }

def corrupted {α : Type} (message : String) : Except Fault α := .error ⟨.corruptedData, message⟩

def deserialize (data : List UInt8) : Except Fault (MemoryRecord F) :=
  let h := RecordHeader.ofBytes data
  let v2 : Bool := h.version = 2
  let uidLen := field data HEADER_SIZE 2
  let aidLen := field data (HEADER_SIZE + 2 + uidLen) 2
  let strings := if v2 then 2 + uidLen + 2 + aidLen else 0
  let size := HEADER_SIZE + strings + 4 * h.embeddingDim.toNat + h.contentLen.toNat + h.metadataLen.toNat
  if data.length < HEADER_SIZE + 4 then corrupted "data too small for header + CRC"
  else if h.magic ≠ MAGIC then corrupted "bad magic number"
  else if h.version ≠ 2 ∧ h.version ≠ 1 then corrupted ("unsupported version: " ++ toString h.version.toNat)
  else if v2 ∧ Coded.isByte MemoryScope h.scope = false then corrupted "invalid scope value"
  else if v2 ∧ Coded.isByte MemoryType h.memoryType = false then corrupted "invalid memory_type value"
  else if v2 ∧ Coded.isByte MemoryTier h.tier = false then corrupted "invalid tier value"
  else if Coded.isByte MemoryPhase h.phase = false then corrupted "invalid phase value"
  else if v2 ∧ data.length < HEADER_SIZE + 2 then corrupted "data too small for user_id length"
  else if v2 ∧ data.length < HEADER_SIZE + 2 + uidLen + 2 then corrupted "data too small for agent_id length"
  else if data.length < size + 4 then corrupted "data too small for declared body"
  else if UInt32.ofNat (field data size 4) ≠ crc (data.take size) then
    .error ⟨.crcMismatch, "CRC32C checksum mismatch"⟩
  else .ok (readRecord nf h data)

/-! ### What comes back -/

/-- The body as it comes back, without its metadata. -/
def bare (b : Body F) : Body F where
  userId := b.userId.take MAX_SIZE
  agentId := b.agentId.take MAX_SIZE
  embedding := b.embedding.take MAX_SIZE
  content := b.content.take MAX_SIZE
  marginalValue := 0
  forgetScore := 0

/-- The body as it comes back. -/
def clip (b : Body F) : Body F := readMetadata nf ((b.metadata nf).take MAX_SIZE) (bare b)

end Record

/-- A field of the header is where it was put. -/
theorem RecordHeader.field_toBytes (h : RecordHeader) (rest : List UInt8) {i w n off : ℕ}
    (hf : h.fields[i]? = some (w, n)) (ho : (widths.take i).sum = off) (hn : n < 256 ^ w) :
    field (h.toBytes ++ rest) off w = n := field_pack hf ho hn

theorem RecordHeader.ofBytes_toBytes (h : RecordHeader) (rest : List UInt8) : ofBytes (h.toBytes ++ rest) = h := by
  have h8 : ∀ {i off : ℕ} {x : UInt8}, h.fields[i]? = some (1, x.toNat) →
      (widths.take i).sum = off → UInt8.ofNat (field (h.toBytes ++ rest) off 1) = x := by
    intro i off x hf ho
    rw [h.field_toBytes rest hf ho x.toNat_lt, UInt8.ofNat_toNat]
  have h16 : ∀ {i off : ℕ} {x : UInt16}, h.fields[i]? = some (2, x.toNat) →
      (widths.take i).sum = off → UInt16.ofNat (field (h.toBytes ++ rest) off 2) = x := by
    intro i off x hf ho
    rw [h.field_toBytes rest hf ho x.toNat_lt, UInt16.ofNat_toNat]
  have h32 : ∀ {i off : ℕ} {x : UInt32}, h.fields[i]? = some (4, x.toNat) →
      (widths.take i).sum = off → UInt32.ofNat (field (h.toBytes ++ rest) off 4) = x := by
    intro i off x hf ho
    rw [h.field_toBytes rest hf ho x.toNat_lt, UInt32.ofNat_toNat]
  have h64 : ∀ {i off : ℕ} {x : UInt64}, h.fields[i]? = some (8, x.toNat) →
      (widths.take i).sum = off → UInt64.ofNat (field (h.toBytes ++ rest) off 8) = x := by
    intro i off x hf ho
    rw [h.field_toBytes rest hf ho x.toNat_lt, UInt64.ofNat_toNat]
  apply RecordHeader.ext
  · exact h32 (i := 0) rfl (by decide)
  · exact h16 (i := 1) rfl (by decide)
  · exact h16 (i := 2) rfl (by decide)
  · exact h64 (i := 3) rfl (by decide)
  · exact h8 (i := 4) rfl (by decide)
  · exact h8 (i := 5) rfl (by decide)
  · exact h8 (i := 6) rfl (by decide)
  · exact h8 (i := 7) rfl (by decide)
  · exact h8 (i := 8) rfl (by decide)
  · exact h32 (i := 10) rfl (by decide)
  · exact h32 (i := 11) rfl (by decide)
  · exact h32 (i := 12) rfl (by decide)
  · exact h32 (i := 13) rfl (by decide)
  · exact h64 (i := 14) rfl (by decide)
  · exact h32 (i := 15) rfl (by decide)
  · exact h32 (i := 16) rfl (by decide)
  · exact h16 (i := 17) rfl (by decide)
  · exact h16 (i := 18) rfl (by decide)
  · exact h16 (i := 19) rfl (by decide)
  · exact h16 (i := 20) rfl (by decide)

@[simp] theorem RecordHeader.length_toBytes (h : RecordHeader) : h.toBytes.length = HEADER_SIZE := by
  have hwidths : h.fields.map (·.1) = widths := rfl
  rw [toBytes, length_pack, hwidths]
  decide

section Roundtrip

variable {F D : Type} {nf : Numbers F D} {crc : List UInt8 → UInt32}

theorem length_writeString (s : Text) : (writeString s).length = 2 + min s.length MAX_SIZE := by
  rw [writeString, List.length_append, length_toLE, List.length_take, Nat.min_comm]

theorem length_writeFloats (xs : List F) : (writeFloats nf xs).length = 4 * xs.length := by
  unfold writeFloats
  rw [List.length_flatMap]
  simp [Nat.mul_comm]

theorem min_lt (n : ℕ) : min n MAX_SIZE < 256 ^ 2 := by
  have : min n MAX_SIZE ≤ 65535 := Nat.min_le_right _ _
  omega

theorem toNat_min (n : ℕ) : (UInt16.ofNat (min n MAX_SIZE)).toNat = min n MAX_SIZE := by
  have hlt := min_lt n
  rw [UInt16.toNat_ofNat', Nat.mod_eq_of_lt (by omega)]

theorem readFloats_writeFloats [Zero F] (hnf : nf.Lawful) (rest : List UInt8) :
    ∀ xs : List F, readFloats nf xs.length (writeFloats nf xs ++ rest) = xs
  | [] => rfl
  | x :: xs => by
    have hcons : writeFloats nf (x :: xs) ++ rest = toLE 4 (nf.toBits x).toNat ++ (writeFloats nf xs ++ rest) := by
      simp [writeFloats]
    have hx : field (writeFloats nf (x :: xs) ++ rest) 0 4 = (nf.toBits x).toNat := by
      rw [hcons]
      exact (field_eq (p := []) (List.prefix_append _ _) rfl (length_toLE 4 _)).trans
        (ofLE_toLE_of_lt (nf.toBits x).toNat_lt)
    have hdrop : (writeFloats nf (x :: xs) ++ rest).drop 4 = writeFloats nf xs ++ rest := by
      rw [hcons, List.drop_append_of_le_length (by rw [length_toLE]), List.drop_of_length_le (by rw [length_toLE]),
        List.nil_append]
    rw [List.length_cons, readFloats, hx, hdrop, readFloats_writeFloats hnf rest xs, UInt32.ofNat_toNat,
      hnf.ofBits_toBits]

/-- Where the parts of a serialized record lie. -/
structure Layout (nf : Numbers F D) (h : RecordHeader) (uid aid : Text) (emb : List F) (cont mtext data : List UInt8) :
    Prop where
  header : RecordHeader.ofBytes data = h
  uidLen : field data HEADER_SIZE 2 = min uid.length MAX_SIZE
  aidLen : field data (HEADER_SIZE + 2 + min uid.length MAX_SIZE) 2 = min aid.length MAX_SIZE
  userId : slice data (HEADER_SIZE + 2) (min uid.length MAX_SIZE) = uid.take MAX_SIZE
  agentId : slice data (HEADER_SIZE + 2 + min uid.length MAX_SIZE + 2) (min aid.length MAX_SIZE) = aid.take MAX_SIZE
  embedding : ∃ rest, data.drop (HEADER_SIZE + 2 + min uid.length MAX_SIZE + 2 + min aid.length MAX_SIZE) =
    writeFloats nf (emb.take MAX_SIZE) ++ rest
  content : slice data (HEADER_SIZE + 2 + min uid.length MAX_SIZE + 2 + min aid.length MAX_SIZE +
    4 * min emb.length MAX_SIZE) (min cont.length MAX_SIZE) = cont.take MAX_SIZE
  metadata : slice data (HEADER_SIZE + 2 + min uid.length MAX_SIZE + 2 + min aid.length MAX_SIZE +
    4 * min emb.length MAX_SIZE + min cont.length MAX_SIZE) (min mtext.length MAX_SIZE) = mtext.take MAX_SIZE

theorem length_payloadOf (h : RecordHeader) (userId agentId : Text) (embedding : List F) (content metadata : Text) :
    (payloadOf nf h userId agentId embedding content metadata).length =
      HEADER_SIZE + 2 + min userId.length MAX_SIZE + 2 + min agentId.length MAX_SIZE +
        4 * min embedding.length MAX_SIZE + min content.length MAX_SIZE + min metadata.length MAX_SIZE := by
  simp only [payloadOf, List.length_append, RecordHeader.length_toBytes, length_writeString, length_writeFloats,
    List.length_take, Nat.min_comm MAX_SIZE]
  omega

theorem layout_payloadOf (h : RecordHeader) (userId agentId : Text) (embedding : List F) (content metadata : Text)
    (post : List UInt8) : Layout nf h userId agentId embedding content metadata
      (payloadOf nf h userId agentId embedding content metadata ++ post) where
  header := by
    rw [payloadOf, List.append_assoc]
    exact RecordHeader.ofBytes_toBytes _ _
  uidLen := by
    refine (field_eq (p := h.toBytes) ?_ (by simp)
      (length_toLE _ _)).trans (ofLE_toLE_of_lt (min_lt _))
    simp [payloadOf, writeString]
  aidLen := by
    refine (field_eq (p := h.toBytes ++ writeString userId)
      ?_ (by simp [length_writeString]; omega)
      (length_toLE _ _)).trans (ofLE_toLE_of_lt (min_lt _))
    simp [payloadOf, writeString]
  userId := by
    refine slice_eq (p := h.toBytes ++ toLE 2 (min userId.length MAX_SIZE)) ?_ (by simp)
      (by simp [Nat.min_comm])
    simp [payloadOf, writeString]
  agentId := by
    refine slice_eq (p := h.toBytes ++ (writeString userId ++ toLE 2 (min agentId.length MAX_SIZE)))
      ?_ (by simp [length_writeString]; omega) (by simp [Nat.min_comm])
    simp [payloadOf, writeString]
  embedding := by
    have hlen : (h.toBytes ++ (writeString userId ++ writeString agentId)).length =
        HEADER_SIZE + 2 + min userId.length MAX_SIZE + 2 + min agentId.length MAX_SIZE := by
      simp [length_writeString]
      omega
    have htext : payloadOf nf h userId agentId embedding content metadata ++ post =
        h.toBytes ++ (writeString userId ++ writeString agentId) ++
          (writeFloats nf (embedding.take MAX_SIZE) ++ (content.take MAX_SIZE ++
            (metadata.take MAX_SIZE ++ post))) := by simp [payloadOf]
    exact ⟨_, by rw [htext, ← hlen, List.drop_left]⟩
  content := by
    refine slice_eq (p := h.toBytes ++ (writeString userId ++ (writeString agentId ++
      writeFloats nf (embedding.take MAX_SIZE)))) ?_ ?_ (by simp [Nat.min_comm])
    · simp [payloadOf]
    · simp [length_writeString, length_writeFloats, Nat.min_comm MAX_SIZE]
      omega
  metadata := by
    refine slice_eq (p := h.toBytes ++ (writeString userId ++ (writeString agentId ++
      (writeFloats nf (embedding.take MAX_SIZE) ++ content.take MAX_SIZE)))) ?_ ?_ (by simp [Nat.min_comm])
    · simp [payloadOf]
    · simp [length_writeString, length_writeFloats, Nat.min_comm MAX_SIZE]
      omega

/-- The record is read from where its parts lie. -/
theorem Layout.readRecord [Zero F] (hnf : nf.Lawful) {r : MemoryRecord F} {data : List UInt8}
    (h : Layout nf (r.header nf) r.userId r.agentId r.embedding r.content (r.metadata nf) data) :
    readRecord nf (r.header nf) data = { r with toBody := clip nf r.toBody } := by
  obtain ⟨rest, hemb⟩ := h.embedding
  have hfloats : readFloats nf (min r.embedding.length MAX_SIZE)
      (writeFloats nf (r.embedding.take MAX_SIZE) ++ rest) = r.embedding.take MAX_SIZE := by
    have hread := readFloats_writeFloats hnf rest (r.embedding.take MAX_SIZE)
    rwa [List.length_take, Nat.min_comm] at hread
  have hdim : (r.header nf).embeddingDim.toNat = min r.embedding.length MAX_SIZE := toNat_min _
  have hcontent : (r.header nf).contentLen.toNat = min r.content.length MAX_SIZE := toNat_min _
  have hmetadata : (r.header nf).metadataLen.toNat = min (r.metadata nf).length MAX_SIZE := toNat_min _
  have hversion : (r.header nf).version = 2 := rfl
  unfold Core.readRecord clip bare
  simp only [hversion, decide_true, if_true, hdim, hcontent, hmetadata, h.uidLen, h.aidLen, h.userId, h.agentId, hemb,
    hfloats, h.content, h.metadata]
  simp only [MemoryRecord.header, Coded.ofByte_toByte, hnf.ofBits_toBits]

/-- What comes back of a serialized record. -/
theorem deserialize_serialize [Zero F] (hnf : nf.Lawful) (r : MemoryRecord F) :
    deserialize nf crc (r.serialize nf crc) = .ok { r with toBody := clip nf r.toBody } := by
  have h : Layout nf (r.header nf) r.userId r.agentId r.embedding r.content (r.metadata nf) (r.serialize nf crc) :=
    layout_payloadOf _ _ _ _ _ _ _
  have hlen : (r.serialize nf crc).length = (r.payload nf).length + 4 := by
    rw [MemoryRecord.serialize, List.length_append, length_toLE]
  have hpayload : (r.payload nf).length = _ := length_payloadOf _ _ _ _ _ _
  have hdim : (r.header nf).embeddingDim.toNat = min r.embedding.length MAX_SIZE := toNat_min _
  have hcontent : (r.header nf).contentLen.toNat = min r.content.length MAX_SIZE := toNat_min _
  have hmetadata : (r.header nf).metadataLen.toNat = min (r.metadata nf).length MAX_SIZE := toNat_min _
  have hsize : HEADER_SIZE + (2 + min r.userId.length MAX_SIZE + 2 + min r.agentId.length MAX_SIZE) +
      4 * min r.embedding.length MAX_SIZE + min r.content.length MAX_SIZE + min (r.metadata nf).length MAX_SIZE =
      (r.payload nf).length := by omega
  have hcrc : UInt32.ofNat (field (r.serialize nf crc) (r.payload nf).length 4) = crc (r.payload nf) := by
    rw [MemoryRecord.serialize, field_eq List.prefix_rfl rfl (length_toLE _ _),
      ofLE_toLE_of_lt (UInt32.toNat_lt _), UInt32.ofNat_toNat]
  have htake : (r.serialize nf crc).take (r.payload nf).length = r.payload nf := List.take_left
  have hversion : (r.header nf).version = 2 := rfl
  unfold deserialize
  simp only [h.header, hversion, decide_true, if_true, hdim, hcontent, hmetadata, h.uidLen, h.aidLen, hsize, hcrc,
    htake, hlen]
  rw [if_neg (by omega), if_neg (fun hm => hm rfl), if_neg (fun hv => hv.1 rfl), if_neg (by simp [MemoryRecord.header]),
    if_neg (by simp [MemoryRecord.header]), if_neg (by simp [MemoryRecord.header]),
    if_neg (by simp [MemoryRecord.header]), if_neg (by omega), if_neg (by omega), if_neg (by omega),
    if_neg (fun hc => hc rfl), h.readRecord hnf]

end Roundtrip

/-! ### The metadata come back whole or not at all -/

section Metadata

variable {F D : Type} {nf : Numbers F D}

theorem lookup_membersOf (m : Key → Bool × Json D) (k : Key) : ∀ ks : List Key, (membersOf m ks).lookup k.text =
    if k ∈ ks ∧ (m k).1 = true then some (m k).2 else none
  | [] => by simp [membersOf]
  | k' :: ks => by
    have ih := lookup_membersOf m k ks
    unfold membersOf at ih ⊢
    by_cases hk : k = k'
    · subst hk
      by_cases hc : (m k).1 = true
      · rw [List.filter_cons, if_pos hc, List.map_cons, List.lookup_cons_self]
        simp [hc]
      · rw [List.filter_cons, if_neg hc, ih, if_neg (fun h => hc h.2), if_neg (fun h => hc h.2)]
    · have htext : (k.text == k'.text) = false := beq_eq_false_iff_ne.mpr fun h => hk (Key.text_injective h)
      rw [List.filter_cons]
      split
      · rw [List.map_cons, List.lookup_cons, htext, ih]
        simp [hk]
      · rw [ih]
        simp [hk]

theorem find_membersOf (m : Key → Bool × Json D) (k : Key) : (Json.obj (membersOf m Key.all)).find k.text =
    if (m k).1 = true then some (m k).2 else none := by
  rw [Json.find, lookup_membersOf]
  simp [Key.mem_all]

theorem find_members (b : Body F) (k : Key) : (Json.obj (b.members nf Key.all)).find k.text =
    if (b.member nf k).1 = true then some (b.member nf k).2 else none := find_membersOf (b.member nf) k

/-- Members are an object the library can hold, if their values are. -/
theorem wellFormed_membersOf {m : Key → Bool × Json D} (h : ∀ k, WellFormed (m k).2) :
    WellFormed (.obj (membersOf m Key.all)) := by
  refine .obj (fun e he => ?_) ?_
  · obtain ⟨k, -, rfl⟩ := List.mem_map.mp he
    exact h k
  · exact List.pairwise_map.mpr ((List.pairwise_map.mp Key.ascending_all).filter _)

theorem wellFormed_nat {n : ℕ} (h : n < 2 ^ 64) : WellFormed (D := D) (.int n) := .int ⟨by omega, by exact_mod_cast h⟩

theorem wellFormed_ofFloat (x : F) : WellFormed (ofFloat nf x) := by
  unfold ofFloat
  split
  · exact .float _
  · exact .null

theorem wellFormed_ofUser (m : StringMap) : WellFormed (D := D) (ofUser m) := by
  refine .obj ?_ ?_
  · intro e he
    obtain ⟨e', -, rfl⟩ := List.mem_map.mp he
    exact .str _
  · exact List.pairwise_map.mpr m.sorted

theorem wellFormed_parents (ps : List UInt64) : WellFormed (D := D) (.arr (ps.map fun p => .int p.toNat)) := by
  refine .arr fun j hj => ?_
  obtain ⟨p, -, rfl⟩ := List.mem_map.mp hj
  exact wellFormed_nat p.toNat_lt

theorem wellFormed_member (b : Body F) (k : Key) : WellFormed (b.member nf k).2 := by
  have h8 : ∀ x : UInt8, x.toNat < 2 ^ 64 := fun x => lt_trans x.toNat_lt (by decide)
  have h32 : ∀ x : UInt32, x.toNat < 2 ^ 64 := fun x => lt_trans x.toNat_lt (by decide)
  cases k with
  | forgetScore => exact wellFormed_ofFloat _
  | marginalValue => exact wellFormed_ofFloat _
  | lineageParents => exact wellFormed_parents _
  | user => exact wellFormed_ofUser _
  | lastGcVisit => exact wellFormed_nat (h32 _)
  | _ => exact wellFormed_nat (h8 _)

/-- The metadata are an object the library can hold. -/
theorem wellFormed_members (b : Body F) : WellFormed (.obj (b.members nf Key.all)) :=
  wellFormed_membersOf (wellFormed_member b)

theorem toParents_arr (nf : Numbers F D) :
    ∀ ps : List UInt64, toParents nf (.arr (ps.map fun p => .int p.toNat)) = some ps
  | [] => rfl
  | p :: ps => by
    have ih := toParents_arr nf ps
    dsimp only [toParents] at ih ⊢
    rw [List.map_cons, List.mapM_cons, ih]
    simp [toInt, ofInt_toNat64]

theorem toUser_ofUser (nf : Numbers F D) (m : StringMap) : toUser nf .empty (ofUser m) = m := by
  have hfold : ∀ (l : List (Utf8Text × Utf8Text)) (m : StringMap),
      (toUser nf m (.obj (l.map fun e => (e.1, .str e.2)))).entries =
        l.foldl (fun m e => Keyed.insertKey e.1 e.2 m) m.entries := by
    intro l
    induction l with
    | nil => intro m; rfl
    | cons e l ih => intro m; exact ih _
  have hentries : (toUser nf .empty (ofUser m)).entries = m.entries :=
    (hfold m.entries .empty).trans (Keyed.ofPairs_of_ascending m.sorted)
  cases h : toUser nf .empty (ofUser m) with
  | mk entries sorted =>
    rw [h] at hentries
    cases m
    cases hentries
    rfl

/-- One member is read, or is not there because its field has the default. -/
theorem readMembers_step {σ : Type} {j v : Json D} {k : Key} {f : Json D → σ → Option σ}
    {fs : List (Key × (Json D → σ → Option σ))} {b c : σ} {held : Bool}
    (hfind : j.find k.text = if held = true then some v else none)
    (hread : held = true → f v b = some c) (hskip : held = false → b = c) :
    Core.readMembers j ((k, f) :: fs) b = Core.readMembers j fs c := by
  rw [Core.readMembers, hfind]
  cases held with
  | true =>
    have hf := hread rfl
    simp only [if_true, hf]
  | false =>
    rw [hskip rfl]
    rfl

/-- A member that cannot be read ends the reading. -/
theorem readMembers_stop {σ : Type} {j v : Json D} {k : Key} {f : Json D → σ → Option σ}
    {fs : List (Key × (Json D → σ → Option σ))} {b : σ} (hfind : j.find k.text = some v) (hread : f v b = none) :
    Core.readMembers j ((k, f) :: fs) b = b := by
  rw [Core.readMembers, hfind]
  simp only [hread]

/-- A float the metadata can hold: one that is not finite is written as null and
not read. -/
def Numbers.holds (nf : Numbers F D) (x : F) : Bool := nf.isZero x || (nf.widen x).isSome

variable [Zero F]

/-- A zero is not written, and comes back as the default. -/
def Numbers.zeroed (nf : Numbers F D) (x : F) : F := if nf.isZero x then 0 else x

theorem holds_zero (hnf : nf.Lawful) : nf.holds 0 = true := by
  rw [Numbers.holds, hnf.isZero_zero]
  rfl

/-- A float that is written is read back, if the metadata can hold it. -/
theorem toFloat_ofFloat (hnf : nf.Lawful) {x : F} (hz : nf.isZero x = false) :
    toFloat nf (ofFloat nf x) = if nf.holds x then some x else none := by
  unfold ofFloat Numbers.holds
  cases hw : nf.widen x with
  | none => simp [hz, toFloat]
  | some d => simp [toFloat, hnf.narrow_widen x d hw]

theorem zeroed_of_isZero {x : F} (h : nf.isZero x = true) : nf.zeroed x = 0 := if_pos h

theorem zeroed_of_not_isZero {x : F} (h : nf.isZero x = false) : nf.zeroed x = x :=
  if_neg (by rw [h]; exact Bool.false_ne_true)

/-- The first five members: where the record comes from. -/
def evidence (b base : Body F) : Body F :=
  { base with
    layer := b.layer
    lineageParents := b.lineageParents
    lineageOp := b.lineageOp
    sourceTier := b.sourceTier
    gateDecision := b.gateDecision }

theorem readMembers_evidence (b base : Body F) (fs : List (Reader F D)) :
    Core.readMembers (.obj (b.members nf Key.all)) ((readers nf).take 5 ++ fs) (bare base) =
      Core.readMembers (.obj (b.members nf Key.all)) fs (evidence b (bare base)) := by
  have hv2 : b.hasV2 nf = false → b.layer = .raw := by
    intro h
    simp only [Body.hasV2, decide_eq_false_iff_not, not_or, not_not] at h
    exact h.1
  have hbyte : ∀ x : UInt8, toIntOrBool nf (.int x.toNat) = some (x.toNat : ℤ) := fun _ => rfl
  show Core.readMembers _ (_ :: _ :: _ :: _ :: _ :: fs) _ = _
  rw [readMembers_step (c := { bare base with layer := b.layer }) (find_members b .layer)
    (fun _ => by simp [Body.member, hbyte, ofInt_toNat8]) (fun h => by rw [hv2 h]; rfl)]
  rw [readMembers_step (c := { bare base with layer := b.layer, lineageParents := b.lineageParents })
    (find_members b .lineageParents) (fun _ => by simp [Body.member, toParents_arr]) (fun h => by
      have hd : b.lineageParents = [] := by simpa [Body.member] using h
      rw [hd]; rfl)]
  rw [readMembers_step
    (c := { bare base with layer := b.layer, lineageParents := b.lineageParents, lineageOp := b.lineageOp })
    (find_members b .lineageOp) (fun _ => by simp [Body.member, hbyte, ofInt_toNat8]) (fun h => by
      have hd : b.lineageOp = .none := by simpa [Body.member] using h
      rw [hd]; rfl)]
  rw [readMembers_step (c := { evidence b (bare base) with gateDecision := .accepted })
    (find_members b .sourceTier) (fun _ => by simp [Body.member, hbyte, ofInt_toNat8, evidence, bare]) (fun h => by
      have hd : b.sourceTier = .inference := by simpa [Body.member] using h
      rw [evidence, hd]; rfl)]
  rw [readMembers_step (c := evidence b (bare base))
    (find_members b .gateDecision) (fun _ => by simp [Body.member, hbyte, ofInt_toNat8, evidence, bare]) (fun h => by
      have hd : b.gateDecision = .accepted := by simpa [Body.member] using h
      rw [evidence, hd])]

/-- A float member: read if the metadata can hold it. -/
theorem readMembers_float (hnf : nf.Lawful) {b base : Body F} {x : F} {k : Key} {fs : List (Reader F D)}
    {set : F → Body F → Body F} (hk : b.member nf k = (!nf.isZero x, ofFloat nf x)) (hset : set 0 base = base) :
    Core.readMembers (.obj (b.members nf Key.all)) ((k, fun j b => (toFloat nf j).map fun x => set x b) :: fs) base =
      if nf.holds x then Core.readMembers (.obj (b.members nf Key.all)) fs (set (nf.zeroed x) base) else base := by
  have hfind : (Json.obj (b.members nf Key.all)).find k.text = _ := find_members b k
  rw [hk] at hfind
  cases hz : nf.isZero x with
  | true =>
    have hholds : nf.holds x = true := by simp [Numbers.holds, hz]
    rw [if_pos hholds, zeroed_of_isZero hz, hset]
    exact readMembers_step hfind (fun h => by simp [hz] at h) fun _ => rfl
  | false =>
    by_cases hholds : nf.holds x = true
    · rw [if_pos hholds, zeroed_of_not_isZero hz]
      refine readMembers_step hfind (fun _ => ?_) fun h => by simp [hz] at h
      show (toFloat nf (ofFloat nf x)).map _ = _
      rw [toFloat_ofFloat hnf hz, if_pos hholds]
      rfl
    · rw [if_neg hholds]
      refine readMembers_stop (hfind.trans (by simp [hz]; rfl)) ?_
      show (toFloat nf (ofFloat nf x)).map _ = _
      rw [toFloat_ofFloat hnf hz, if_neg hholds]
      rfl

/-- What the metadata of a body make of the body without them: everything up to
a float that was not finite. -/
def kept (nf : Numbers F D) (b : Body F) : Body F :=
  if nf.holds b.marginalValue then
    if nf.holds b.forgetScore then
      { evidence b (bare b) with
        marginalValue := nf.zeroed b.marginalValue
        forgetScore := nf.zeroed b.forgetScore
        lastGcVisit := b.lastGcVisit
        resurrectionCount := b.resurrectionCount
        userMetadata := b.userMetadata }
    else { evidence b (bare b) with marginalValue := nf.zeroed b.marginalValue }
  else evidence b (bare b)

theorem readMembers_members (hnf : nf.Lawful) (b : Body F) :
    Core.readMembers (.obj (b.members nf Key.all)) (readers nf) (bare b) = kept nf b := by
  have hbyte : ∀ x : UInt8, toIntOrBool nf (.int x.toNat) = some (x.toNat : ℤ) := fun _ => rfl
  have hword : ∀ x : UInt32, toIntOrBool nf (.int x.toNat) = some (x.toNat : ℤ) := fun _ => rfl
  rw [← List.take_append_drop 5 (readers nf), readMembers_evidence]
  show Core.readMembers _ [_, _, _, _, _] _ = _
  rw [readMembers_float (k := .marginalValue) hnf rfl rfl,
    readMembers_float (k := .forgetScore) hnf rfl rfl]
  rw [readMembers_step (c := { evidence b (bare b) with
        marginalValue := nf.zeroed b.marginalValue
        forgetScore := nf.zeroed b.forgetScore
        lastGcVisit := b.lastGcVisit })
    (find_members b .lastGcVisit) (fun _ => by simp [Body.member, hword, ofInt_toNat32]) (fun h => by
      have hd : b.lastGcVisit = 0 := by simpa [Body.member] using h
      rw [hd]; rfl)]
  rw [readMembers_step (c := { evidence b (bare b) with
        marginalValue := nf.zeroed b.marginalValue
        forgetScore := nf.zeroed b.forgetScore
        lastGcVisit := b.lastGcVisit
        resurrectionCount := b.resurrectionCount })
    (find_members b .resurrectionCount) (fun _ => by simp [Body.member, hbyte, ofInt_toNat8]) (fun h => by
      have hd : b.resurrectionCount = 0 := by simpa [Body.member] using h
      rw [hd]; rfl)]
  rw [readMembers_step (c := { evidence b (bare b) with
        marginalValue := nf.zeroed b.marginalValue
        forgetScore := nf.zeroed b.forgetScore
        lastGcVisit := b.lastGcVisit
        resurrectionCount := b.resurrectionCount
        userMetadata := b.userMetadata })
    (find_members b .user) (fun _ => by
      show some _ = some _
      rw [show (b.member nf .user).2 = ofUser b.userMetadata from rfl]
      exact congrArg some (by simp only [evidence, bare, toUser_ofUser])) (fun h => by
      have hd : b.userMetadata = .empty := StringMap.eq_empty (by simpa [Body.member, Body.hasUser] using h)
      rw [hd]; rfl)]
  rfl

/-- A body with no metadata. -/
theorem kept_of_none {b : Body F} (h : ¬ (b.hasV2 nf = true ∨ b.hasUser = true)) : kept nf b = bare b := by
  obtain ⟨hv2, huser⟩ := not_or.mp h
  have huser : b.userMetadata = .empty := StringMap.eq_empty (by simpa [Body.hasUser] using huser)
  simp only [Body.hasV2, decide_eq_true_eq, not_or, not_not, Bool.not_eq_false] at hv2
  obtain ⟨hlayer, hparents, hop, htier, hgate, hmarginal, hforget, hvisit, hcount⟩ := hv2
  have hm : nf.holds b.marginalValue = true := by simp [Numbers.holds, hmarginal]
  have hf : nf.holds b.forgetScore = true := by simp [Numbers.holds, hforget]
  rw [kept, if_pos hm, if_pos hf, zeroed_of_isZero hmarginal, zeroed_of_isZero hforget, evidence, hlayer, hparents, hop,
    htier, hgate, hvisit, hcount, huser]
  rfl

/-- **What comes back of a body.** If its metadata do not fit, nothing of them
comes back. -/
theorem clip_eq (hnf : nf.Lawful) (b : Body F) :
    clip nf b = if (b.metadata nf).length ≤ MAX_SIZE then kept nf b else bare b := by
  unfold clip readMetadata
  by_cases hmeta : b.hasV2 nf = true ∨ b.hasUser = true
  · have htext : b.metadata nf = nf.text.dump (.obj (b.members nf Key.all)) := if_pos hmeta
    by_cases hlen : (b.metadata nf).length ≤ MAX_SIZE
    · rw [if_pos hlen, List.take_of_length_le hlen, htext, hnf.text.parse_dump (wellFormed_members b)]
      exact readMembers_members hnf b
    · rw [if_neg hlen, htext, hnf.text.parse_take_dump (wellFormed_members b) (by rw [← htext]; omega)]
  · have htext : b.metadata nf = [] := if_neg hmeta
    have hparse : nf.text.parse ([].take MAX_SIZE) = none := by
      rw [List.take_nil]
      exact hnf.text.parse_nil
    rw [htext, hparse, if_pos (show ([] : Text).length ≤ MAX_SIZE from Nat.zero_le _), kept_of_none hmeta]

/-! ### The second time everything comes back -/

@[simp] theorem zeroed_zeroed (hnf : nf.Lawful) (x : F) : nf.zeroed (nf.zeroed x) = nf.zeroed x := by
  cases hz : nf.isZero x with
  | true => rw [zeroed_of_isZero hz, zeroed_of_isZero hnf.isZero_zero]
  | false => rw [zeroed_of_not_isZero hz, zeroed_of_not_isZero hz]

theorem holds_zeroed (hnf : nf.Lawful) {x : F} (h : nf.holds x = true) : nf.holds (nf.zeroed x) = true := by
  cases hz : nf.isZero x with
  | true => rw [zeroed_of_isZero hz, holds_zero hnf]
  | false => rw [zeroed_of_not_isZero hz, h]

theorem bare_bare (b : Body F) : bare (bare b) = bare b := by simp [bare, List.take_take]

/-- Only what the metadata hold differs. -/
theorem bare_kept (b : Body F) : bare (kept nf b) = bare b := by
  unfold kept
  split
  · split <;> simp [bare, evidence, List.take_take]
  · simp [bare, evidence, List.take_take]

/-- Each field of `b'` that the metadata hold has its default or is that of
`b`. -/
structure Within (nf : Numbers F D) (b' b : Body F) : Prop where
  layer : b'.layer = b.layer
  lineageParents : b'.lineageParents = b.lineageParents
  lineageOp : b'.lineageOp = b.lineageOp
  sourceTier : b'.sourceTier = b.sourceTier
  gateDecision : b'.gateDecision = b.gateDecision
  marginalValue : nf.isZero b'.marginalValue = true ∨ b'.marginalValue = b.marginalValue
  forgetScore : nf.isZero b'.forgetScore = true ∨ b'.forgetScore = b.forgetScore
  lastGcVisit : b'.lastGcVisit = 0 ∨ b'.lastGcVisit = b.lastGcVisit
  resurrectionCount : b'.resurrectionCount = 0 ∨ b'.resurrectionCount = b.resurrectionCount
  userMetadata : b'.userMetadata = .empty ∨ b'.userMetadata = b.userMetadata

theorem zeroed_within (hnf : nf.Lawful) (x : F) : nf.isZero (nf.zeroed x) = true ∨ nf.zeroed x = x := by
  cases hz : nf.isZero x with
  | true => exact .inl (by rw [zeroed_of_isZero hz, hnf.isZero_zero])
  | false => exact .inr (zeroed_of_not_isZero hz)

theorem kept_within (hnf : nf.Lawful) (b : Body F) : Within nf (kept nf b) b := by
  have hzero : nf.isZero (0 : F) = true := hnf.isZero_zero
  unfold kept
  split
  · split
    · exact ⟨rfl, rfl, rfl, rfl, rfl, zeroed_within hnf _, zeroed_within hnf _, .inr rfl, .inr rfl, .inr rfl⟩
    · exact ⟨rfl, rfl, rfl, rfl, rfl, zeroed_within hnf _, .inl hzero, .inl rfl, .inl rfl, .inl rfl⟩
  · exact ⟨rfl, rfl, rfl, rfl, rfl, .inl hzero, .inl hzero, .inl rfl, .inl rfl, .inl rfl⟩

omit [Zero F] in
theorem Within.hasV2 {b' b : Body F} (h : Within nf b' b) (hv : b'.hasV2 nf = true) : b.hasV2 nf = true := by
  simp only [Body.hasV2, decide_eq_true_eq] at hv ⊢
  rw [h.layer, h.lineageParents, h.lineageOp, h.sourceTier, h.gateDecision] at hv
  have hm := h.marginalValue
  have hf := h.forgetScore
  have hl := h.lastGcVisit
  have hr := h.resurrectionCount
  grind

omit [Zero F] in
theorem Within.hasUser {b' b : Body F} (h : Within nf b' b) (hu : b'.hasUser = true) : b.hasUser = true := by
  rcases h.userMetadata with he | he
  · rw [Body.hasUser, he] at hu
    cases hu
  · rwa [Body.hasUser, he] at hu

omit [Zero F] in
theorem Within.member {b' b : Body F} (h : Within nf b' b) (k : Key) (hk : (b'.member nf k).1 = true) :
    (b.member nf k).1 = true ∧ (b'.member nf k).2 = (b.member nf k).2 := by
  have hsame : b'.member nf k = b.member nf k →
      (b.member nf k).1 = true ∧ (b'.member nf k).2 = (b.member nf k).2 := by
    intro he
    rw [he] at hk
    exact ⟨hk, congrArg Prod.snd he⟩
  cases k with
  | forgetScore =>
    rcases h.forgetScore with he | he
    · simp [Body.member, he] at hk
    · exact hsame (by simp only [Body.member, he])
  | marginalValue =>
    rcases h.marginalValue with he | he
    · simp [Body.member, he] at hk
    · exact hsame (by simp only [Body.member, he])
  | lastGcVisit =>
    rcases h.lastGcVisit with he | he
    · simp [Body.member, he] at hk
    · exact hsame (by simp only [Body.member, he])
  | resurrectionCount =>
    rcases h.resurrectionCount with he | he
    · simp [Body.member, he] at hk
    · exact hsame (by simp only [Body.member, he])
  | user =>
    rcases h.userMetadata with he | he
    · rw [Body.member, Body.hasUser, he] at hk
      cases hk
    · exact hsame (by simp only [Body.member, Body.hasUser, he])
  | layer => exact ⟨h.hasV2 hk, by simp only [Body.member, h.layer]⟩
  | lineageParents => exact hsame (by simp only [Body.member, h.lineageParents])
  | lineageOp => exact hsame (by simp only [Body.member, h.lineageOp])
  | sourceTier => exact hsame (by simp only [Body.member, h.sourceTier])
  | gateDecision => exact hsame (by simp only [Body.member, h.gateDecision])

omit [Zero F] in
theorem Within.members {b' b : Body F} (h : Within nf b' b) (ks : List Key) :
    (b'.members nf ks).Sublist (b.members nf ks) := by
  have hvalues : b'.members nf ks =
      (ks.filter fun k => (b'.member nf k).1).map fun k => (k.text, (b.member nf k).2) := by
    refine List.map_congr_left fun k hk => ?_
    rw [(h.member k (List.mem_filter.mp hk).2).2]
  rw [hvalues]
  exact (List.monotone_filter_right ks fun k hk => (h.member k hk).1).map _

omit [Zero F] in
theorem Within.length_metadata (htext : nf.text.Lawful) {b' b : Body F} (h : Within nf b' b) :
    (b'.metadata nf).length ≤ (b.metadata nf).length := by
  unfold Body.metadata
  by_cases hc : b'.hasV2 nf = true ∨ b'.hasUser = true
  · rw [if_pos hc, if_pos (hc.imp h.hasV2 h.hasUser)]
    exact htext.length_dump_sublist (h.members Key.all)
  · rw [if_neg hc]
    exact Nat.zero_le _

theorem kept_kept (hnf : nf.Lawful) (b : Body F) : kept nf (kept nf b) = kept nf b := by
  have hzero := holds_zero hnf
  have hzeroed : nf.zeroed (0 : F) = 0 := zeroed_of_isZero hnf.isZero_zero
  have hbare : bare (kept nf b) = bare b := bare_kept b
  by_cases hm : nf.holds b.marginalValue = true
  · by_cases hf : nf.holds b.forgetScore = true
    · have hk : kept nf b = { evidence b (bare b) with
          marginalValue := nf.zeroed b.marginalValue
          forgetScore := nf.zeroed b.forgetScore
          lastGcVisit := b.lastGcVisit
          resurrectionCount := b.resurrectionCount
          userMetadata := b.userMetadata } := by rw [kept, if_pos hm, if_pos hf]
      rw [kept, hbare, hk, if_pos (holds_zeroed hnf hm), if_pos (holds_zeroed hnf hf), zeroed_zeroed hnf,
        zeroed_zeroed hnf]
      rfl
    · have hk : kept nf b = { evidence b (bare b) with marginalValue := nf.zeroed b.marginalValue } := by
        rw [kept, if_pos hm, if_neg hf]
      have hk0 : (kept nf b).forgetScore = 0 := by rw [hk]; rfl
      rw [kept, hbare, hk0, if_pos hzero, hk, if_pos (holds_zeroed hnf hm), zeroed_zeroed hnf, hzeroed]
      rfl
  · have hk : kept nf b = evidence b (bare b) := by rw [kept, if_neg hm]
    have hk0 : (kept nf b).forgetScore = 0 := by rw [hk]; rfl
    have hk1 : (kept nf b).marginalValue = 0 := by rw [hk]; rfl
    rw [kept, hbare, hk0, hk1, if_pos hzero, if_pos hzero, hzeroed, hk]
    rfl

/-- **What came back once comes back.** -/
theorem clip_clip (hnf : nf.Lawful) (b : Body F) : clip nf (clip nf b) = clip nf b := by
  have hbare : kept nf (bare b) = bare b := by
    rw [kept_of_none, bare_bare]
    have hzero : nf.isZero (0 : F) = true := hnf.isZero_zero
    simp [Body.hasV2, Body.hasUser, bare, StringMap.empty, hzero]
  have hnone : (bare b).metadata nf = [] := by
    have hzero : nf.isZero (0 : F) = true := hnf.isZero_zero
    simp [Body.metadata, Body.hasV2, Body.hasUser, bare, StringMap.empty, hzero]
  by_cases hlen : (b.metadata nf).length ≤ MAX_SIZE
  · have hlen' : ((kept nf b).metadata nf).length ≤ MAX_SIZE :=
      le_trans ((kept_within hnf b).length_metadata hnf.text) hlen
    rw [clip_eq hnf b, if_pos hlen, clip_eq hnf, if_pos hlen', kept_kept hnf]
  · rw [clip_eq hnf b, if_neg hlen, clip_eq hnf, hnone, if_pos (show ([] : Text).length ≤ MAX_SIZE from Nat.zero_le _),
      hbare]

/-- The wire of the codec. -/
def wireOf (nf : Numbers F D) (hnf : nf.Lawful) : Wire F := ⟨clip nf, clip_clip hnf⟩

/-- **What is read from the storage engine** is what was put there, as the wire
has it. -/
theorem deserialize_wire (hnf : nf.Lawful) (crc : List UInt8 → UInt32) (r : MemoryRecord F) :
    deserialize nf crc (r.serialize nf crc) = .ok (r.wire (wireOf nf hnf)) := deserialize_serialize hnf r

end Metadata

end Core
end Amind
