/-
# A record that is written and read again

Between its default and another value, a field that is kept with the metadata
decides what is written: if one of them or the user's map is not the default, an
object of those that are not; if none is, the metadata that the record was read
with, as they were. So a record that is read with a layer, and gets the default
one back, is written with the metadata that have the layer.

`comesBack_iff` says of every record whose parts fit their lengths when it comes
back: if the four enumerations that are checked have declared values, and either
one of the fields is not the default and the two floats are finite, or all of
them are the default and the old metadata say nothing else.

The fields are read in a fixed order, up to the first member that is there and
cannot be read. `membersRead` are the members that are, a function of the text
alone. `Predicates` are predicates on the fields, one for each; `Says` is what a
member has to be for the predicate of its field. `holds_decode` says that all
fields satisfy theirs if and only if all members that are read say so, if the
defaults do.
-/
import Amind.Core.RawRecord

namespace Amind
namespace Core

open LittleEndian Json WireFormat
open Coded (toByte isByte)

/-! ### What the metadata say -/

/-- Predicates on the fields that are kept with the metadata. -/
structure Predicates (F : Type) where
  layer : UInt8 → Prop := fun _ => True
  lineageParents : List UInt64 → Prop := fun _ => True
  lineageOp : UInt8 → Prop := fun _ => True
  sourceTier : UInt8 → Prop := fun _ => True
  gateDecision : UInt8 → Prop := fun _ => True
  marginalValue : F → Prop := fun _ => True
  forgetScore : F → Prop := fun _ => True
  lastGcVisit : UInt32 → Prop := fun _ => True
  resurrectionCount : UInt8 → Prop := fun _ => True
  userMetadata : StringMap → Prop := fun _ => True

namespace Predicates

variable {F D : Type} (nf : Numbers F D) (P : Predicates F)

/-- The predicate of a field holds. -/
def Holds : Key → V2Fields F → Prop
  | .layer, v => P.layer v.layer
  | .lineageParents, v => P.lineageParents v.lineageParents
  | .lineageOp, v => P.lineageOp v.lineageOp
  | .sourceTier, v => P.sourceTier v.sourceTier
  | .gateDecision, v => P.gateDecision v.gateDecision
  | .marginalValue, v => P.marginalValue v.marginalValue
  | .forgetScore, v => P.forgetScore v.forgetScore
  | .lastGcVisit, v => P.lastGcVisit v.lastGcVisit
  | .resurrectionCount, v => P.resurrectionCount v.resurrectionCount
  | .user, v => P.userMetadata v.userMetadata

/-- The predicate of a field holds of what its member is read as. -/
def Says : Key → Json D → Prop
  | .layer, j => ∀ n, toIntOrBool nf j = some n → P.layer (UInt8.ofInt n)
  | .lineageParents, j => ∀ ps, toParents nf j = some ps → P.lineageParents ps
  | .lineageOp, j => ∀ n, toIntOrBool nf j = some n → P.lineageOp (UInt8.ofInt n)
  | .sourceTier, j => ∀ n, toIntOrBool nf j = some n → P.sourceTier (UInt8.ofInt n)
  | .gateDecision, j => ∀ n, toIntOrBool nf j = some n → P.gateDecision (UInt8.ofInt n)
  | .marginalValue, j => ∀ x, toFloat nf j = some x → P.marginalValue x
  | .forgetScore, j => ∀ x, toFloat nf j = some x → P.forgetScore x
  | .lastGcVisit, j => ∀ n, toIntOrBool nf j = some n → P.lastGcVisit (UInt32.ofInt n)
  | .resurrectionCount, j => ∀ n, toIntOrBool nf j = some n → P.resurrectionCount (UInt8.ofInt n)
  | .user, j => P.userMetadata (toUser nf .empty j)

end Predicates

section Reading

variable {F D : Type} (nf : Numbers F D)

/-- The value of a member can be read. -/
def readable : Key → Json D → Bool
  | .lineageParents, j => (toParents nf j).isSome
  | .marginalValue, j => (toFloat nf j).isSome
  | .forgetScore, j => (toFloat nf j).isSome
  | .user, _ => true
  | _, j => (toIntOrBool nf j).isSome

/-- The members of the metadata that are read. -/
def membersRead (metadata : Text) : List (Key × Json D) :=
  match nf.text.parse metadata with
  | some j => Members.membersRead (fun k => j.find k.text) (readable nf) Key.reading
  | none => []

/-- The user's map is empty as long as it has not been read. -/
def Unread (k : Key) (v : V2Fields F) : Prop := k = .user → v.userMetadata = .empty

theorem nodup_reading : Key.reading.Nodup := by decide

theorem mem_reading (k : Key) : k ∈ Key.reading := by cases k <;> decide

/-- **Each member is read into a field of its own.** -/
theorem reads (P : Predicates F) : Members.Reads (V2Fields.read nf) (readable nf) Unread P.Holds (P.Says nf) where
  isSome := by
    intro k j v
    cases k <;> simp [V2Fields.read, readable]
  own := by
    intro k j v v' hfresh hread
    cases k with
    | user =>
      cases hread
      simp only [Predicates.Holds, Predicates.Says, hfresh rfl]
    | _ =>
      obtain ⟨n, hn, rfl⟩ := Option.map_eq_some_iff.mp hread
      simp only [Predicates.Holds, Predicates.Says, hn, Option.some.injEq, forall_eq']
  fresh := by
    rintro k k' j v v' hne hread hfresh rfl
    cases k' with
    | user => exact absurd rfl hne
    | _ =>
      obtain ⟨n, -, rfl⟩ := Option.map_eq_some_iff.mp hread
      exact hfresh rfl
  frame := by
    intro k k' j v v' hne hread
    cases k' with
    | user =>
      cases hread
      cases k <;> first | rfl | exact absurd rfl hne
    | _ =>
      obtain ⟨n, -, rfl⟩ := Option.map_eq_some_iff.mp hread
      cases k <;> first | rfl | exact absurd rfl hne

variable [Zero F]

theorem unread_fresh (k : Key) : Unread k (.fresh : V2Fields F) := fun _ => rfl

/-- **What the metadata make of the fields.** -/
theorem holds_decode {P : Predicates F} (hP : ∀ k, P.Holds k .fresh) (metadata : Text) :
    (∀ k, P.Holds k (V2Fields.decode nf metadata)) ↔ ∀ m ∈ membersRead nf metadata, P.Says nf m.1 m.2 := by
  unfold V2Fields.decode membersRead
  cases nf.text.parse metadata with
  | none => exact iff_of_true hP fun m hm => absurd hm List.not_mem_nil
  | some j => exact (reads nf P).holds_iff nodup_reading unread_fresh hP

end Reading

/-! ### What is written and read -/

section Fields

variable {F D : Type} (nf : Numbers F D)

/-- The same float, or both zero. -/
def SameFloat (x y : F) : Prop := x = y ∨ nf.isZero x = true ∧ nf.isZero y = true

/-- Every field is that of `v`. -/
def V2Fields.same (v : V2Fields F) : Predicates F where
  layer b := b = v.layer
  lineageParents ps := ps = v.lineageParents
  lineageOp b := b = v.lineageOp
  sourceTier b := b = v.sourceTier
  gateDecision b := b = v.gateDecision
  marginalValue := SameFloat nf v.marginalValue
  forgetScore := SameFloat nf v.forgetScore
  lastGcVisit n := n = v.lastGcVisit
  resurrectionCount n := n = v.resurrectionCount
  userMetadata m := m = v.userMetadata

/-- Every field is the default. -/
def defaults : Predicates F where
  layer b := b = toByte MemoryLayer.raw
  lineageParents ps := ps = []
  lineageOp b := b = toByte LineageOp.none
  sourceTier b := b = toByte SourceTier.inference
  gateDecision b := b = toByte GateDecision.accepted
  marginalValue x := nf.isZero x = true
  forgetScore x := nf.isZero x = true
  lastGcVisit n := n = 0
  resurrectionCount n := n = 0
  userMetadata m := m = .empty

variable {nf} {v : V2Fields F}

theorem defaults_iff : (∀ k, (defaults nf).Holds k v) ↔ ¬ (v.hasV2 nf = true ∨ v.hasUser = true) := by
  have hempty : v.userMetadata.entries = [] ↔ v.userMetadata = .empty :=
    ⟨StringMap.eq_empty, fun h => by rw [h]; rfl⟩
  simp only [V2Fields.hasV2, V2Fields.hasUser, decide_eq_true_eq, not_or, not_not, Bool.not_eq_false, hempty]
  constructor
  · intro h
    exact ⟨⟨h .layer, h .lineageParents, h .lineageOp, h .sourceTier, h .gateDecision, h .marginalValue,
      h .forgetScore, h .lastGcVisit, h .resurrectionCount⟩, h .user⟩
  · rintro ⟨⟨hlayer, hparents, hop, htier, hgate, hmarginal, hforget, hvisit, hcount⟩, huser⟩ k
    cases k <;> assumption

end Fields

namespace V2Fields

variable {F D : Type} [Zero F] {nf : Numbers F D} {v : V2Fields F}

theorem defaults_fresh (hnf : nf.Lawful) (k : Key) : (defaults nf).Holds k (.fresh : V2Fields F) := by
  cases k with
  | marginalValue | forgetScore => exact hnf.isZero_zero
  | _ => rfl

omit [Zero F] in
theorem sameFloat_iff {x y : F} (hx : nf.isZero x = true) : SameFloat nf x y ↔ nf.isZero y = true := by
  constructor
  · rintro (rfl | h)
    · exact hx
    · exact h.2
  · exact fun hy => .inr ⟨hx, hy⟩

omit [Zero F] in
/-- The same as the defaults are defaults. -/
theorem same_iff_defaults (hv : ∀ k, (defaults nf).Holds k v) (w : V2Fields F) :
    (∀ k, (v.same nf).Holds k w) ↔ ∀ k, (defaults nf).Holds k w := by
  refine forall_congr' fun k => ?_
  have hk := hv k
  cases k with
  | marginalValue | forgetScore => exact sameFloat_iff hk
  | _ => exact iff_of_eq (congrArg (_ = ·) hk)

/-! ### Fields that are written -/

omit [Zero F] in
theorem wellFormed_member (v : V2Fields F) (k : Key) : WellFormed (v.member nf k).2 := by
  have h8 : ∀ x : UInt8, x.toNat < 2 ^ 64 := fun x => lt_trans x.toNat_lt (by decide)
  have h32 : ∀ x : UInt32, x.toNat < 2 ^ 64 := fun x => lt_trans x.toNat_lt (by decide)
  cases k with
  | forgetScore => exact wellFormed_ofFloat _
  | marginalValue => exact wellFormed_ofFloat _
  | lineageParents => exact wellFormed_parents _
  | user => exact wellFormed_ofUser _
  | lastGcVisit => exact wellFormed_nat (h32 _)
  | _ => exact wellFormed_nat (h8 _)

/-- A member that is written can be read, unless it is a float that was not
finite. -/
theorem readable_member (hnf : nf.Lawful) {k : Key} (hk : (v.member nf k).1 = true) :
    readable nf k (v.member nf k).2 = true ↔
      (k = .marginalValue → nf.holds v.marginalValue = true) ∧ (k = .forgetScore → nf.holds v.forgetScore = true) := by
  have hfloat : ∀ x : F, nf.isZero x = false → ((toFloat nf (ofFloat nf x)).isSome = true ↔ nf.holds x = true) := by
    intro x hx
    rw [toFloat_ofFloat hnf hx]
    split <;> simp_all
  cases k with
  | marginalValue =>
    have hx : nf.isZero v.marginalValue = false := by simpa [member] using hk
    simpa [readable, member] using hfloat _ hx
  | forgetScore =>
    have hx : nf.isZero v.forgetScore = false := by simpa [member] using hk
    simpa [readable, member] using hfloat _ hx
  | lineageParents => simp [readable, member, toParents_arr]
  | _ => simp [readable, member, toIntOrBool, toInt]

/-- What is written of a field is the field. -/
theorem says_member (hnf : nf.Lawful) {k : Key} (hk : (v.member nf k).1 = true) :
    (v.same nf).Says nf k (v.member nf k).2 := by
  have hfloat : ∀ x y : F, nf.isZero x = false → toFloat nf (ofFloat nf x) = some y → SameFloat nf x y := by
    intro x y hx hy
    rw [toFloat_ofFloat hnf hx] at hy
    split at hy
    · exact .inl (Option.some.inj hy)
    · cases hy
  cases k with
  | marginalValue => exact fun y hy => hfloat _ y (by simpa [member] using hk) hy
  | forgetScore => exact fun y hy => hfloat _ y (by simpa [member] using hk) hy
  | lineageParents =>
    intro ps hps
    exact (Option.some.inj ((toParents_arr nf _).symm.trans hps)).symm
  | user => exact toUser_ofUser nf _
  | lastGcVisit =>
    intro n hn
    cases hn
    exact ofInt_toNat32 _
  | _ =>
    intro n hn
    cases hn
    exact ofInt_toNat8 _

/-- What is not written of a field is the default. -/
theorem same_fresh (hnf : nf.Lawful) {k : Key} (hk : (v.member nf k).1 = false) : (v.same nf).Holds k .fresh := by
  cases k with
  | marginalValue =>
    exact .inr ⟨by simpa [member] using hk, hnf.isZero_zero⟩
  | forgetScore =>
    exact .inr ⟨by simpa [member] using hk, hnf.isZero_zero⟩
  | layer =>
    simp only [member, hasV2, decide_eq_false_iff_not, not_or, not_not] at hk
    exact hk.1.symm
  | user =>
    have hu : v.userMetadata.entries = [] := by simpa [member, hasUser] using hk
    exact (StringMap.eq_empty hu).symm
  | lineageParents =>
    have hd : v.lineageParents = [] := by simpa [member] using hk
    exact hd.symm
  | lastGcVisit =>
    have hd : v.lastGcVisit = 0 := by simpa [member] using hk
    exact hd.symm
  | resurrectionCount =>
    have hd : v.resurrectionCount = 0 := by simpa [member] using hk
    exact hd.symm
  | lineageOp =>
    have hd : v.lineageOp = toByte LineageOp.none := by simpa [member] using hk
    exact hd.symm
  | sourceTier =>
    have hd : v.sourceTier = toByte SourceTier.inference := by simpa [member] using hk
    exact hd.symm
  | gateDecision =>
    have hd : v.gateDecision = toByte GateDecision.accepted := by simpa [member] using hk
    exact hd.symm

/-- **Fields that are written come back** if and only if the two floats are
finite. -/
theorem decode_dump_iff (hnf : nf.Lawful) :
    (∀ k, (v.same nf).Holds k (decode nf (nf.text.dump (.obj (membersOf (v.member nf) Key.all))))) ↔
      nf.holds v.marginalValue = true ∧ nf.holds v.forgetScore = true := by
  have hfind := find_membersOf (v.member nf)
  have hreads := reads nf (v.same nf)
  unfold decode
  rw [hnf.text.parse_dump (wellFormed_membersOf v.wellFormed_member)]
  dsimp only
  constructor
  · intro h
    -- a float that is not finite is written, is not read, and leaves the default
    have hlost : ∀ k, (v.member nf k).1 = true → ¬ (v.same nf).Holds k .fresh →
        readable nf k (v.member nf k).2 = true := by
      intro k hk hfresh
      by_contra hr
      refine hfresh ((hreads.holds_of_not_mem fun j hj => ?_).mp (h k))
      obtain ⟨-, hj, hread⟩ := Members.of_mem_membersRead hj
      rw [hfind k, if_pos hk] at hj
      cases hj
      exact hr hread
    have hfloat : ∀ x : F, nf.isZero x = false → ¬ SameFloat nf x 0 := by
      rintro x hx (rfl | h0)
      · rw [hnf.isZero_zero] at hx
        cases hx
      · rw [hx] at h0
        exact absurd h0.1 Bool.false_ne_true
    constructor
    · cases hz : nf.isZero v.marginalValue with
      | true => rw [Numbers.holds, hz, Bool.true_or]
      | false =>
        have hk : (v.member nf .marginalValue).1 = true := by simp [member, hz]
        exact ((readable_member hnf hk).mp (hlost _ hk (hfloat _ hz))).1 rfl
    · cases hz : nf.isZero v.forgetScore with
      | true => rw [Numbers.holds, hz, Bool.true_or]
      | false =>
        have hk : (v.member nf .forgetScore).1 = true := by simp [member, hz]
        exact ((readable_member hnf hk).mp (hlost _ hk (hfloat _ hz))).2 rfl
  · rintro ⟨hm, hf⟩ k
    cases hk : (v.member nf k).1 with
    | true =>
      have hall : ∀ k ∈ Key.reading, ∀ j, (Json.obj (membersOf (v.member nf) Key.all)).find k.text = some j →
          readable nf k j = true := by
        intro k _ j hj
        rw [hfind k] at hj
        split at hj
        · rename_i hk
          cases hj
          exact (readable_member hnf hk).mpr ⟨fun _ => hm, fun _ => hf⟩
        · cases hj
      have hmem := Members.mem_membersRead hall (mem_reading k) ((hfind k).trans (if_pos hk))
      exact (hreads.holds_of_mem nodup_reading (unread_fresh k) hmem).mpr (says_member hnf hk)
    | false =>
      refine (hreads.holds_of_not_mem fun j hj => ?_).mpr (same_fresh hnf hk)
      obtain ⟨-, hj, -⟩ := Members.of_mem_membersRead hj
      rw [hfind k, hk] at hj
      cases hj

end V2Fields

/-! ### Records that are written -/

namespace RawRecord

variable {F D : Type} (nf : Numbers F D) (crc : List UInt8 → UInt32)

/-- Every part fits its length. -/
structure Fits (r : RawRecord F) : Prop where
  userId : r.userId.length ≤ MAX_SIZE
  agentId : r.agentId.length ≤ MAX_SIZE
  embedding : r.embedding.length ≤ MAX_SIZE
  content : r.content.length ≤ MAX_SIZE
  metadata : (r.effectiveMetadata nf).length ≤ MAX_SIZE

/-- The enumerations that are checked when they are read have declared values. -/
structure Checks (r : RawRecord F) : Prop where
  scope : isByte MemoryScope r.scope = true
  memoryType : isByte MemoryType r.memoryType = true
  tier : isByte MemoryTier r.tier = true
  phase : isByte MemoryPhase r.phase = true

/-- `r'` equals `r` in every field of the header, in its strings, its embedding
and its content, and in every field that is kept with the metadata. -/
structure Same (r r' : RawRecord F) : Prop where
  memoryId : r'.memoryId = r.memoryId
  userId : r'.userId = r.userId
  agentId : r'.agentId = r.agentId
  scope : r'.scope = r.scope
  memoryType : r'.memoryType = r.memoryType
  tier : r'.tier = r.tier
  phase : r'.phase = r.phase
  confidenceLevel : r'.confidenceLevel = r.confidenceLevel
  confidenceScore : r'.confidenceScore = r.confidenceScore
  flags : r'.flags = r.flags
  importance : r'.importance = r.importance
  accessCount : r'.accessCount = r.accessCount
  memVersion : r'.memVersion = r.memVersion
  parentId : r'.parentId = r.parentId
  createdAt : r'.createdAt = r.createdAt
  lastAccessed : r'.lastAccessed = r.lastAccessed
  sourceTurn : r'.sourceTurn = r.sourceTurn
  embedding : r'.embedding = r.embedding
  content : r'.content = r.content
  v2 : ∀ k, (r.same nf).Holds k r'.toV2Fields

variable {nf crc}

variable (nf crc) in
theorem layout_serialize (r : RawRecord F) : Layout nf (r.header nf) r.userId r.agentId r.embedding r.content
    (r.effectiveMetadata nf) (r.serialize nf crc) := layout_payloadOf _ _ _ _ _ _ _

variable (nf crc) in
theorem length_serialize (r : RawRecord F) : (r.serialize nf crc).length = (r.payload nf).length + 4 := by
  rw [serialize, List.length_append, length_toLE]

theorem stringsEnd_serialize (r : RawRecord F) : stringsEnd (r.header nf) (r.serialize nf crc) =
    HEADER_SIZE + 2 + min r.userId.length MAX_SIZE + 2 + min r.agentId.length MAX_SIZE := by
  have h := r.layout_serialize nf crc
  have hversion : (r.header nf).version = 2 := rfl
  rw [stringsEnd, if_pos hversion, h.uidLen, h.aidLen]

variable (nf crc) in
theorem payloadSize_serialize (r : RawRecord F) :
    payloadSize (r.header nf) (r.serialize nf crc) = (r.payload nf).length := by
  have hdim : (r.header nf).embeddingDim.toNat = min r.embedding.length MAX_SIZE := toNat_min _
  have hcontent : (r.header nf).contentLen.toNat = min r.content.length MAX_SIZE := toNat_min _
  have hmetadata : (r.header nf).metadataLen.toNat = min (r.effectiveMetadata nf).length MAX_SIZE := toNat_min _
  rw [payloadSize, stringsEnd_serialize, hdim, hcontent, hmetadata, payload, length_payloadOf]

/-- **A record is accepted** if the enumerations that are checked have declared
values. -/
theorem accepted_serialize (r : RawRecord F) : Accepted crc (r.serialize nf crc) ↔ r.Checks := by
  have hheader := (r.layout_serialize nf crc).header
  have hsize := r.payloadSize_serialize nf crc
  have hlen := r.length_serialize nf crc
  constructor
  · rintro ⟨-, -, -, hscope, htype, htier, hphase, -, -⟩
    rw [hheader] at hscope htype htier hphase
    exact ⟨hscope rfl, htype rfl, htier rfl, hphase⟩
  · intro h
    have hlong : HEADER_SIZE ≤ (r.payload nf).length := by
      rw [payload, length_payloadOf]
      omega
    constructor
    case long => omega
    case checksum =>
      rw [hheader, hsize, serialize, field_eq List.prefix_rfl rfl (length_toLE _ _),
        ofLE_toLE_of_lt (UInt32.toNat_lt _), UInt32.ofNat_toNat, List.take_left]
    all_goals rw [hheader]
    case magic => rfl
    case version => exact .inl rfl
    case scope => exact fun _ => h.scope
    case memoryType => exact fun _ => h.memoryType
    case tier => exact fun _ => h.tier
    case phase => exact h.phase
    case body => rw [hsize, hlen]

variable [Zero F]

/-- What is read of a record that fits. -/
theorem recordOf_serialize (hnf : nf.Lawful) {r : RawRecord F} (hfits : Fits nf r) :
    recordOf nf (r.header nf) (r.serialize nf crc) =
      { r with
        toV2Fields := V2Fields.decode nf (r.effectiveMetadata nf)
        metadata := r.effectiveMetadata nf } := by
  have h := r.layout_serialize nf crc
  obtain ⟨rest, hemb⟩ := h.embedding
  have hdim : (r.header nf).embeddingDim.toNat = min r.embedding.length MAX_SIZE := toNat_min _
  have hcontent : (r.header nf).contentLen.toNat = min r.content.length MAX_SIZE := toNat_min _
  have hmetadata : (r.header nf).metadataLen.toNat = min (r.effectiveMetadata nf).length MAX_SIZE := toNat_min _
  have hversion : (r.header nf).version = 2 := rfl
  have huid := h.userId
  have haid := h.agentId
  have hcont := h.content
  have hmeta := h.metadata
  rw [List.take_of_length_le hfits.userId] at huid
  rw [List.take_of_length_le hfits.agentId] at haid
  rw [List.take_of_length_le hfits.content] at hcont
  rw [List.take_of_length_le hfits.metadata] at hmeta
  rw [List.take_of_length_le hfits.embedding] at hemb
  have hfloats : readFloats nf (min r.embedding.length MAX_SIZE) (writeFloats nf r.embedding ++ rest) =
      r.embedding := by
    rw [Nat.min_eq_left hfits.embedding]
    exact readFloats_writeFloats hnf rest r.embedding
  unfold recordOf ofParts
  simp only [hversion, if_true, stringsEnd_serialize, hdim, hcontent, hmetadata, h.uidLen, h.aidLen, huid, haid, hemb,
    hfloats, hcont, hmeta]
  simp only [header, hnf.ofBits_toBits]

variable (nf crc) in
/-- The record is read again, and is the same. -/
def ComesBack (r : RawRecord F) : Prop := ∃ r', deserialize nf crc (r.serialize nf crc) = .ok r' ∧ Same nf r r'

theorem comesBack_iff_holds (hnf : nf.Lawful) {r : RawRecord F} (hfits : Fits nf r) :
    ComesBack nf crc r ↔ r.Checks ∧ ∀ k, (r.same nf).Holds k (V2Fields.decode nf (r.effectiveMetadata nf)) := by
  have hheader := (r.layout_serialize nf crc).header
  unfold ComesBack
  simp only [deserialize_eq_ok_iff, accepted_serialize, hheader, recordOf_serialize hnf hfits]
  constructor
  · rintro ⟨_, ⟨hchecks, rfl⟩, hsame⟩
    exact ⟨hchecks, hsame.v2⟩
  · rintro ⟨hchecks, hv2⟩
    exact ⟨_, ⟨hchecks, rfl⟩,
      ⟨rfl, rfl, rfl, rfl, rfl, rfl, rfl, rfl, rfl, rfl, rfl, rfl, rfl, rfl, rfl, rfl, rfl, rfl, rfl, hv2⟩⟩

variable (nf) in
/-- What is written of a record says what the record does: a float that is
written is finite, and metadata that are written as they were read say nothing
else than the defaults. -/
structure Faithful (r : RawRecord F) : Prop where
  checks : r.Checks
  written : r.hasV2 nf = true ∨ r.hasUser = true →
    nf.holds r.marginalValue = true ∧ nf.holds r.forgetScore = true
  carried : ¬ (r.hasV2 nf = true ∨ r.hasUser = true) →
    ∀ m ∈ membersRead nf r.metadata, (defaults nf).Says nf m.1 m.2

/-- **A record comes back** if and only if what is written of it says what the
record does. -/
theorem comesBack_iff {F D : Type} [Zero F] {nf : Numbers F D} (hnf : nf.Lawful) (crc : List UInt8 → UInt32)
    (r : RawRecord F) (hfits : Fits nf r) : ComesBack nf crc r ↔ Faithful nf r := by
  rw [comesBack_iff_holds hnf hfits]
  by_cases hv : r.hasV2 nf = true ∨ r.hasUser = true
  · have htext : r.effectiveMetadata nf = nf.text.dump (.obj (membersOf (r.member nf) Key.all)) := if_pos hv
    rw [htext, V2Fields.decode_dump_iff hnf]
    exact ⟨fun h => ⟨h.1, fun _ => h.2, fun hn => absurd hv hn⟩, fun h => ⟨h.checks, h.written hv⟩⟩
  · have htext : r.effectiveMetadata nf = r.metadata := if_neg hv
    rw [htext, V2Fields.same_iff_defaults (defaults_iff.mpr hv), holds_decode nf (V2Fields.defaults_fresh hnf)]
    exact ⟨fun h => ⟨h.1, fun hp => absurd hp hv, fun _ => h.2⟩, fun h => ⟨h.checks, h.carried hv⟩⟩

/-! ### A record that is raw again -/

theorem lawful_whole : Numbers.whole.Lawful where
  ofBits_toBits := fun _ => rfl
  isZero_zero := by decide
  narrow_widen := fun _ d => d.elim
  text := Json.lawful_integers

/-- A derived memory. -/
def derived : RawRecord UInt32 :=
  { V2Fields.fresh with layer := toByte MemoryLayer.derived, confidenceScore := 0, importance := 0 }

def derivedText : Text := Utf8.bytes "\x7b\"layer\":1\x7d"

theorem text_derived : derived.effectiveMetadata Numbers.whole = derivedText := by decide

theorem fits_derived : Fits Numbers.whole derived := ⟨by decide, by decide, by decide, by decide, by decide⟩

theorem decode_derivedText : V2Fields.decode Numbers.whole derivedText = derived.toV2Fields := by decide

/-- The derived memory comes back. -/
theorem comesBack_derived : Fits Numbers.whole derived ∧ ∀ crc, ComesBack Numbers.whole crc derived :=
  ⟨fits_derived, fun crc => (comesBack_iff lawful_whole crc derived fits_derived).mpr
    ⟨⟨by decide, by decide, by decide, by decide⟩, fun _ => by decide, fun h => absurd (by decide) h⟩⟩

/-- The derived memory as it was read, and then set back to raw. -/
def rawAgain : RawRecord UInt32 := { derived with layer := toByte MemoryLayer.raw, metadata := derivedText }

/-- **A memory that is raw again comes back as derived**: it is written with the
metadata that it was read with. -/
theorem not_comesBack_rawAgain : Fits Numbers.whole rawAgain ∧ ∀ crc,
    (∃ r, deserialize Numbers.whole crc (derived.serialize Numbers.whole crc) = .ok r ∧
      { r with layer := toByte MemoryLayer.raw } = rawAgain) ∧
    ¬ ComesBack Numbers.whole crc rawAgain := by
  have hfits : Fits Numbers.whole rawAgain := ⟨by decide, by decide, by decide, by decide, by decide⟩
  refine ⟨hfits, fun crc => ⟨⟨{ derived with metadata := derivedText }, ?_, rfl⟩, fun h => ?_⟩⟩
  · rw [deserialize_eq_ok_iff, accepted_serialize, (layout_serialize _ _ derived).header,
      recordOf_serialize lawful_whole fits_derived, text_derived, decode_derivedText]
    exact ⟨⟨by decide, by decide, by decide, by decide⟩, rfl⟩
  · have hcarried : rawAgain.effectiveMetadata Numbers.whole = derivedText := by decide
    have hv2 := ((comesBack_iff_holds lawful_whole hfits).mp h).2
    rw [hcarried, decode_derivedText] at hv2
    have hlayer : toByte MemoryLayer.derived = toByte MemoryLayer.raw := hv2 .layer
    exact absurd hlayer (by decide)

end RawRecord
end Core
end Amind
