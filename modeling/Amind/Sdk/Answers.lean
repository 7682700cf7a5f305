/-
# What the SDK makes of the answers

The handlers write the number of a memory as a string, so that no reader of the JSON
rounds it, but for the memories an intercept captured or a removal invalidated, and the
number of a session. The SDK reads all of them as numbers. A string is no number, and
what is thrown then is not caught: no call of the SDK returns the number of a memory
that was stored, recalled or read (`outcome_answer`).
-/
import Amind.Core.MemoryRecord
import Amind.Core.RawRoundTrip
import Amind.Lib.Characters
import Amind.Sdk.Exchange

namespace Amind
namespace Sdk

open Amind.Core Amind.Auth Amind.Server
open Amind.Provider.HttpClient
open Keyed (ofPairs)

section Answers

variable {F D : Type} (nf : Numbers F D)

/-! ### What the handlers answer -/

/-- A text of a record, if it can be written. -/
def textJson (t : Text) : Option (Json D) := if h : Utf8.valid t = true then some (.str ⟨t, h⟩) else none

/-- A number as a string. -/
def idString (id : UInt64) : Utf8Text :=
  ⟨Auth.toString id, Utf8.valid_of_ascii fun b hb => by
    have hall : ∀ b : Fin 256, Json.isDigit (.ofFin b) = true → UInt8.ofFin b < 0x80 := by decide +kernel
    exact hall b.toFin (Json.dumpNat_digits _ b hb)⟩

def idNumber (id : UInt64) : Json D := .int id.toNat

namespace Key

def accessCount : Utf8Text := ⟨Utf8.bytes "access_count", Utf8.valid_bytes _⟩
def agentId : Utf8Text := ⟨Utf8.bytes "agent_id", Utf8.valid_bytes _⟩
def asyncRefinementScheduled : Utf8Text := ⟨Utf8.bytes "async_refinement_scheduled", Utf8.valid_bytes _⟩
def capturedIds : Utf8Text := ⟨Utf8.bytes "captured_ids", Utf8.valid_bytes _⟩
def captureScheduled : Utf8Text := ⟨Utf8.bytes "capture_scheduled", Utf8.valid_bytes _⟩
def confidence : Utf8Text := ⟨Utf8.bytes "confidence", Utf8.valid_bytes _⟩
def content : Utf8Text := ⟨Utf8.bytes "content", Utf8.valid_bytes _⟩
def createdAt : Utf8Text := ⟨Utf8.bytes "created_at", Utf8.valid_bytes _⟩
def deleted : Utf8Text := ⟨Utf8.bytes "deleted", Utf8.valid_bytes _⟩
def importance : Utf8Text := ⟨Utf8.bytes "importance", Utf8.valid_bytes _⟩
def invalidatedCount : Utf8Text := ⟨Utf8.bytes "invalidated_count", Utf8.valid_bytes _⟩
def invalidatedIds : Utf8Text := ⟨Utf8.bytes "invalidated_ids", Utf8.valid_bytes _⟩
def lastAccessed : Utf8Text := ⟨Utf8.bytes "last_accessed", Utf8.valid_bytes _⟩
def memoryId : Utf8Text := ⟨Utf8.bytes "memory_id", Utf8.valid_bytes _⟩
def memoryIds : Utf8Text := ⟨Utf8.bytes "memory_ids", Utf8.valid_bytes _⟩
def memoryType : Utf8Text := ⟨Utf8.bytes "memory_type", Utf8.valid_bytes _⟩
def metadata : Utf8Text := ⟨Utf8.bytes "metadata", Utf8.valid_bytes _⟩
def parentId : Utf8Text := ⟨Utf8.bytes "parent_id", Utf8.valid_bytes _⟩
def phase : Utf8Text := ⟨Utf8.bytes "phase", Utf8.valid_bytes _⟩
def results : Utf8Text := ⟨Utf8.bytes "results", Utf8.valid_bytes _⟩
def scope : Utf8Text := ⟨Utf8.bytes "scope", Utf8.valid_bytes _⟩
def score : Utf8Text := ⟨Utf8.bytes "score", Utf8.valid_bytes _⟩
def semanticScore : Utf8Text := ⟨Utf8.bytes "semantic_score", Utf8.valid_bytes _⟩
def sessionId : Utf8Text := ⟨Utf8.bytes "session_id", Utf8.valid_bytes _⟩
def tier : Utf8Text := ⟨Utf8.bytes "tier", Utf8.valid_bytes _⟩
def userId : Utf8Text := ⟨Utf8.bytes "user_id", Utf8.valid_bytes _⟩
def version : Utf8Text := ⟨Utf8.bytes "version", Utf8.valid_bytes _⟩
def versions : Utf8Text := ⟨Utf8.bytes "versions", Utf8.valid_bytes _⟩

end Key

/-- What the client said of a memory, if it said something. -/
def metadataMember (r : MemoryRecord F) : List (Utf8Text × Json D) :=
  if r.userMetadata.entries = [] then []
  else [(Key.metadata, .obj (r.userMetadata.entries.map fun e => (e.1, .str e.2)))]

def handleGetMemory (r : MemoryRecord F) : Option (Json D) := do
  let content ← textJson r.content
  let agentId ← textJson r.agentId
  let userId ← textJson r.userId
  return .obj (ofPairs ([(Key.memoryId, .str (idString r.memoryId)), (Key.content, content), (Key.agentId, agentId),
    (Key.userId, userId), (Key.scope, .str (scopeToString r.scope)),
      (Key.memoryType, .str (memoryTypeToString r.memoryType)),
    (Key.tier, .str (memoryTierToString r.tier)), (Key.phase, .str (phaseToString r.phase)),
    (Key.confidence, .str (confidenceToString r.confidenceLevel)), (Key.version, .int r.memVersion.toNat),
    (Key.parentId, .str (idString r.parentId)), (Key.importance, ofFloat nf r.importance),
    (Key.accessCount, .int r.accessCount.toNat), (Key.createdAt, .int r.createdAt.toNat),
    (Key.lastAccessed, .int r.lastAccessed.toNat)] ++ metadataMember r))

def versionItem (r : MemoryRecord F) : Option (Json D) := do
  let content ← textJson r.content
  return .obj (ofPairs [(Key.memoryId, .str (idString r.memoryId)), (Key.content, content),
    (Key.version, .int r.memVersion.toNat), (Key.parentId, .str (idString r.parentId))])

def handleGetHistory (rs : List (MemoryRecord F)) : Option (Json D) :=
  (rs.mapM versionItem).map fun items => .obj (ofPairs [(Key.versions, .arr items)])

/-- A memory that is recalled, and the content it is shown with: a confidential one is
said to be. -/
structure Scored (F : Type) where
  record : MemoryRecord F
  shown : Text
  totalScore : F
  semanticScore : F

def recallItem (s : Scored F) : Option (Json D) := do
  let content ← textJson s.shown
  return .obj (ofPairs ([(Key.memoryId, .str (idString s.record.memoryId)), (Key.content, content),
    (Key.scope, .str (scopeToString s.record.scope)), (Key.memoryType, .str (memoryTypeToString s.record.memoryType)),
    (Key.tier, .str (memoryTierToString s.record.tier)), (Key.phase, .str (phaseToString s.record.phase)),
    (Key.confidence, .str (confidenceToString s.record.confidenceLevel)), (Key.score, ofFloat nf s.totalScore),
    (Key.semanticScore, ofFloat nf s.semanticScore), (Key.importance, ofFloat nf s.record.importance),
    (Key.accessCount, .int s.record.accessCount.toNat), (Key.createdAt, .int s.record.createdAt.toNat),
    (Key.lastAccessed, .int s.record.lastAccessed.toNat)] ++ metadataMember s.record))

def answerRecall (ss : List (Scored F)) : Option (Json D) :=
  (ss.mapM (recallItem nf)).map fun items => .obj (ofPairs [(Key.results, .arr items)])

def answerStore (ids : List UInt64) : Json D :=
  .obj (ofPairs [(Key.memoryIds, .arr (ids.map fun id => .str (idString id))),
    (Key.asyncRefinementScheduled, .bool true)])

/-- What was captured is named if the capture succeeded. -/
def answerIntercept (ids : Option (List UInt64)) : Json D :=
  .obj (ofPairs ((Key.captureScheduled, .bool true) ::
    (match ids with
     | some ids => [(Key.capturedIds, .arr (ids.map idNumber))]
     | none => [])))

def answerDelete (descendants : List UInt64) : Json D :=
  .obj (ofPairs [(Key.deleted, .bool true), (Key.invalidatedCount, .int descendants.length),
    (Key.invalidatedIds, .arr (descendants.map idNumber))])

def answerSessionStart (id : UInt64) : Json D := .obj (ofPairs [(Key.sessionId, idNumber id)])

/-! ### What the SDK reads -/

/-- What comes of a call. -/
inductive Outcome (α : Type)
  | ok (a : α)
  | error (message : Text)
  /-- What is thrown while an answer is read is not caught. -/
  | thrown
  deriving DecidableEq

/-- What is read, or something is thrown. -/
def Outcome.ofOption {α : Type} : Option α → Outcome α
  | some a => .ok a
  | none => .thrown

/-- The JSON of a response, or the error in it. -/
def parseJsonResponse (resp : Response) : Except Text (Json D) :=
  if 400 ≤ resp.statusCode then
    let status := Utf8.bytes "HTTP " ++ Json.dumpInt resp.statusCode
    match (nf.text.parse resp.body).bind fun j => (j.find (Utf8.lit "error")).elim (some status) fun
        | .str s => some s.val
        | _ => none with
    | some message => .error message
    | none => .error status
  else
    match nf.text.parse resp.body with
    | some j => .ok j
    | none => .error (Utf8.bytes "JSON parse error")

/-- A value as a number of 64 bits. -/
def getUInt64 (j : Json D) : Option UInt64 := (toInt nf j).map UInt64.ofInt

/-- The elements of a value that is gone through: of an array or an object, what is in
it, of another value but null itself. -/
def elements : Json D → List (Json D)
  | .null => []
  | .arr js => js
  | .obj ms => ms.map (·.2)
  | j => [j]

/-- The numbers in a member, if it is there. -/
def idsOf (j : Json D) (k : Utf8Text) : Option (List UInt64) :=
  match j.find k with
  | some v => (elements v).mapM (getUInt64 nf)
  | none => some []

structure StoreResponse where
  memoryIds : List UInt64
  asyncRefinementScheduled : Bool
  deriving DecidableEq

structure RecallItem (F : Type) where
  memoryId : UInt64
  content : Utf8Text
  agentId : Utf8Text
  userId : Utf8Text
  scope : Utf8Text
  memoryType : Utf8Text
  tier : Utf8Text
  phase : Utf8Text
  confidence : Utf8Text
  score : F
  semanticScore : F

structure MemoryInfo (F : Type) where
  memoryId : UInt64
  content : Utf8Text
  agentId : Utf8Text
  userId : Utf8Text
  scope : Utf8Text
  memoryType : Utf8Text
  tier : Utf8Text
  phase : Utf8Text
  confidence : Utf8Text
  version : UInt32
  parentId : UInt64
  importance : F

structure VersionInfo where
  memoryId : UInt64
  content : Utf8Text
  version : UInt32
  parentId : UInt64

structure DeleteResponse where
  deleted : Bool
  invalidatedCount : UInt64
  invalidatedIds : List UInt64
  deriving DecidableEq

def valueUInt32 (j : Json D) (k : Utf8Text) (default : UInt32) : Option UInt32 :=
  match j with
  | .obj ms =>
    match ms.lookup k with
    | some v => (toIntOrBool nf v).map UInt32.ofInt
    | none => some default
  | _ => none

def valueFloat (j : Json D) (k : Utf8Text) (default : F) : Option F :=
  match j with
  | .obj ms =>
    match ms.lookup k with
    | some v => toFloat nf v
    | none => some default
  | _ => none

def readStore (j : Json D) : Option StoreResponse := do
  let memoryIds ← idsOf nf j Key.memoryIds
  let scheduled ← valueBool j Key.asyncRefinementScheduled false
  return ⟨memoryIds, scheduled⟩

def readItem [Zero F] (item : Json D) : Option (RecallItem F) := do
  let memoryId ← valueUInt64 nf item Key.memoryId 0
  let content ← valueString item Key.content (Utf8.lit "")
  let agentId ← valueString item Key.agentId (Utf8.lit "")
  let userId ← valueString item Key.userId (Utf8.lit "")
  let scope ← valueString item Key.scope (Utf8.lit "")
  let memoryType ← valueString item Key.memoryType (Utf8.lit "")
  let tier ← valueString item Key.tier (Utf8.lit "")
  let phase ← valueString item Key.phase (Utf8.lit "")
  let confidence ← valueString item Key.confidence (Utf8.lit "")
  let score ← valueFloat nf item Key.score 0
  let semanticScore ← valueFloat nf item Key.semanticScore 0
  return ⟨memoryId, content, agentId, userId, scope, memoryType, tier, phase, confidence, score, semanticScore⟩

/-- The elements of a member, each read. -/
def readEach {α : Type} (read : Json D → Option α) (j : Json D) (k : Utf8Text) : Option (List α) :=
  match j.find k with
  | some v => (elements v).mapM read
  | none => some []

def readRecall [Zero F] (j : Json D) : Option (List (RecallItem F)) := readEach (readItem nf) j Key.results

def readMemory [Zero F] (j : Json D) : Option (MemoryInfo F) := do
  let memoryId ← valueUInt64 nf j Key.memoryId 0
  let content ← valueString j Key.content (Utf8.lit "")
  let agentId ← valueString j Key.agentId (Utf8.lit "")
  let userId ← valueString j Key.userId (Utf8.lit "")
  let scope ← valueString j Key.scope (Utf8.lit "")
  let memoryType ← valueString j Key.memoryType (Utf8.lit "")
  let tier ← valueString j Key.tier (Utf8.lit "")
  let phase ← valueString j Key.phase (Utf8.lit "")
  let confidence ← valueString j Key.confidence (Utf8.lit "")
  let version ← valueUInt32 nf j Key.version 0
  let parentId ← valueUInt64 nf j Key.parentId 0
  let importance ← valueFloat nf j Key.importance 0
  return ⟨memoryId, content, agentId, userId, scope, memoryType, tier, phase, confidence, version, parentId, importance⟩

def readVersion (item : Json D) : Option VersionInfo := do
  let memoryId ← valueUInt64 nf item Key.memoryId 0
  let content ← valueString item Key.content (Utf8.lit "")
  let version ← valueUInt32 nf item Key.version 0
  let parentId ← valueUInt64 nf item Key.parentId 0
  return ⟨memoryId, content, version, parentId⟩

def readHistory (j : Json D) : Option (List VersionInfo) := readEach (readVersion nf) j Key.versions

def readDelete (j : Json D) : Option DeleteResponse := do
  let deleted ← valueBool j Key.deleted false
  let invalidatedCount ← valueUInt64 nf j Key.invalidatedCount 0
  let invalidatedIds ← idsOf nf j Key.invalidatedIds
  return ⟨deleted, invalidatedCount, invalidatedIds⟩

def readIntercept (j : Json D) : Option (List UInt64) := idsOf nf j Key.capturedIds

def readSessionStart (j : Json D) : Option UInt64 := valueUInt64 nf j Key.sessionId 0

/-- What the SDK makes of a response. -/
def outcome {α : Type} (read : Json D → Option α) (resp : Response) : Outcome α :=
  match parseJsonResponse nf resp with
  | .error message => .error message
  | .ok j => .ofOption (read j)

end Answers

/-! ### Numbers that are strings -/

section Thrown

variable {F D : Type} {nf : Numbers F D}

/-- A string is no number. -/
theorem getUInt64_str (s : Utf8Text) : getUInt64 nf (.str s : Json D) = none := rfl

theorem valueUInt64_str {ms : List (Utf8Text × Json D)} {k s : Utf8Text} (hn : (ms.map Prod.fst).Nodup)
    (h : (k, .str s) ∈ ms) (default : UInt64) : valueUInt64 nf (.obj (ofPairs ms)) k default = none := by
  rw [valueUInt64, Keyed.lookup_ofPairs hn h]
  rfl

theorem mapM_idNumber (ids : List UInt64) : (ids.map (idNumber (D := D))).mapM (getUInt64 nf) = some ids := by
  induction ids with
  | nil => rfl
  | cons id ids ih =>
    rw [List.map_cons, List.mapM_cons, ih,
      show getUInt64 nf (idNumber id) = some id from congrArg some (Json.ofInt_toNat64 id)]
    rfl

theorem mapM_eq_none {α β : Type} {f : α → Option β} {a : α} {as : List α} (h : f a = none) :
    (a :: as).mapM f = none := by
  rw [List.mapM_cons, h]
  rfl

/-- What a client said of a memory is written well, under a key of its own. -/
theorem metadataMember_cases (r : MemoryRecord F) :
    metadataMember (D := D) r = [] ∨
      ∃ j : Json D, metadataMember r = [(Key.metadata, j)] ∧ Json.WellFormed j := by
  unfold metadataMember
  split
  · exact .inl rfl
  · refine .inr ⟨_, rfl, .obj ?_ ?_⟩
    · intro m hm
      obtain ⟨e, -, rfl⟩ := List.mem_map.mp hm
      exact .str e.2
    · exact List.Pairwise.map _ (fun _ _ h => h) r.userMetadata.sorted

theorem wellFormed_uint32 (n : UInt32) : Json.WellFormed (.int n.toNat : Json D) :=
  wellFormed_nat (Nat.lt_trans n.toNat_lt (by decide))

theorem wellFormed_idNumber (id : UInt64) : Json.WellFormed (idNumber id : Json D) := wellFormed_nat id.toNat_lt

theorem wellFormed_textJson {t : Text} {j : Json D} (h : textJson t = some j) : Json.WellFormed j := by
  unfold textJson at h
  split at h
  · cases h
    exact .str _
  · cases h

/-- The number of an item is a string, whatever else is in it, if no key is twice. -/
theorem valueUInt64_first {id : UInt64} {ms : List (Utf8Text × Json D)} {keys : List Utf8Text}
    (hn : (Key.memoryId :: keys).Nodup) (hkeys : ms.map Prod.fst = keys) :
    valueUInt64 nf (.obj (ofPairs ((Key.memoryId, .str (idString id)) :: ms))) Key.memoryId 0 = none :=
  valueUInt64_str (by rw [List.map_cons, hkeys]; exact hn) List.mem_cons_self 0

/-- A memory that is read is written well, and its number is a string. -/
theorem handleGetMemory_spec {r : MemoryRecord F} {j : Json D} (h : handleGetMemory nf r = some j) :
    Json.WellFormed j ∧ valueUInt64 nf j Key.memoryId 0 = none := by
  simp only [handleGetMemory, Option.bind_eq_bind, Option.bind_eq_some_iff, Option.pure_def, Option.some.injEq] at h
  obtain ⟨content, hcontent, agentId, hagent, userId, huser, rfl⟩ := h
  have hbody := wellFormed_textJson hcontent
  have hagent := wellFormed_textJson hagent
  have huser := wellFormed_textJson huser
  have hkeys : ∀ rest ∈ [[], [Key.metadata]],
    (Key.memoryId :: ([Key.content, Key.agentId, Key.userId, Key.scope, Key.memoryType, Key.tier, Key.phase,
      Key.confidence, Key.version, Key.parentId, Key.importance, Key.accessCount, Key.createdAt,
        Key.lastAccessed] ++ rest)).Nodup := by
    decide
  rcases metadataMember_cases (D := D) r with hmeta | ⟨m, hmeta, hm⟩
  · rw [hmeta]
    constructor
    · refine Json.wellFormed_ofPairs ?_
      simp [Json.WellFormed.str, hbody, hagent, huser, wellFormed_uint32, wellFormed_ofFloat]
    · exact valueUInt64_first (hkeys [] (by decide)) rfl
  · rw [hmeta]
    constructor
    · refine Json.wellFormed_ofPairs ?_
      simp [Json.WellFormed.str, hbody, hagent, huser, wellFormed_uint32, wellFormed_ofFloat, hm]
    · exact valueUInt64_first (hkeys [Key.metadata] (by decide)) rfl

/-- So is one that is recalled. -/
theorem recallItem_spec {s : Scored F} {j : Json D} (h : recallItem nf s = some j) :
    Json.WellFormed j ∧ valueUInt64 nf j Key.memoryId 0 = none := by
  simp only [recallItem, Option.bind_eq_bind, Option.bind_eq_some_iff, Option.pure_def, Option.some.injEq] at h
  obtain ⟨content, hcontent, rfl⟩ := h
  have hbody := wellFormed_textJson hcontent
  have hkeys : ∀ rest ∈ [[], [Key.metadata]],
    (Key.memoryId :: ([Key.content, Key.scope, Key.memoryType, Key.tier, Key.phase, Key.confidence, Key.score,
      Key.semanticScore, Key.importance, Key.accessCount, Key.createdAt, Key.lastAccessed] ++ rest)).Nodup := by
    decide
  rcases metadataMember_cases (D := D) s.record with hmeta | ⟨m, hmeta, hm⟩
  · rw [hmeta]
    constructor
    · refine Json.wellFormed_ofPairs ?_
      simp [Json.WellFormed.str, hbody, wellFormed_uint32, wellFormed_ofFloat]
    · exact valueUInt64_first (hkeys [] (by decide)) rfl
  · rw [hmeta]
    constructor
    · refine Json.wellFormed_ofPairs ?_
      simp [Json.WellFormed.str, hbody, wellFormed_uint32, wellFormed_ofFloat, hm]
    · exact valueUInt64_first (hkeys [Key.metadata] (by decide)) rfl

/-- And a version. -/
theorem versionItem_spec {r : MemoryRecord F} {j : Json D} (h : versionItem r = some j) :
    Json.WellFormed j ∧ valueUInt64 nf j Key.memoryId 0 = none := by
  simp only [versionItem, Option.bind_eq_bind, Option.bind_eq_some_iff, Option.pure_def, Option.some.injEq] at h
  obtain ⟨content, hcontent, rfl⟩ := h
  have hbody := wellFormed_textJson hcontent
  constructor
  · refine Json.wellFormed_ofPairs ?_
    simp [Json.WellFormed.str, hbody, wellFormed_uint32]
  · have hkeys : [Key.memoryId, Key.content, Key.version, Key.parentId].Nodup := by decide
    exact valueUInt64_first hkeys rfl

theorem mem_of_mapM {α β : Type} {f : α → Option β} : ∀ {as : List α} {bs : List β}, as.mapM f = some bs →
    ∀ b ∈ bs, ∃ a ∈ as, f a = some b
  | [], bs, h, b, hb => by
    cases h
    exact absurd hb List.not_mem_nil
  | a :: as, bs, h, b, hb => by
    simp only [List.mapM_cons, Option.bind_eq_bind, Option.bind_eq_some_iff, Option.pure_def, Option.some.injEq] at h
    obtain ⟨c, hc, cs, hcs, rfl⟩ := h
    rcases List.mem_cons.mp hb with rfl | hb
    · exact ⟨a, List.mem_cons_self, hc⟩
    · obtain ⟨a', ha', hf⟩ := mem_of_mapM hcs b hb
      exact ⟨a', List.mem_cons_of_mem _ ha', hf⟩

/-- An array of items of which the reading of each throws is read if it is empty. -/
theorem mapM_items {α β : Type} {write : β → Option (Json D)} {read : Json D → Option α}
    (hwrite : ∀ b j, write b = some j → Json.WellFormed j ∧ read j = none) {bs : List β} {items : List (Json D)}
    (h : bs.mapM write = some items) :
    Json.WellFormed (.arr items) ∧ items.mapM read = if bs = [] then some [] else none := by
  constructor
  · refine .arr fun j hj => ?_
    obtain ⟨b, -, hb⟩ := mem_of_mapM h j hj
    exact (hwrite b j hb).1
  · cases bs with
    | nil =>
      cases h
      rfl
    | cons b bs =>
      rw [if_neg (List.cons_ne_nil _ _)]
      simp only [List.mapM_cons, Option.bind_eq_bind, Option.bind_eq_some_iff, Option.pure_def, Option.some.injEq] at h
      obtain ⟨j, hj, js, -, rfl⟩ := h
      exact mapM_eq_none (hwrite b j hj).2

/-! ### What comes of the calls -/

/-- A response that is fine. -/
def okResponse (nf : Numbers F D) (j : Json D) : Response := ⟨200, nf.text.dump j⟩

theorem outcome_ok {α : Type} (hfl : nf.text.Lawful) (read : Json D → Option α) {j : Json D} (h : Json.WellFormed j) :
    outcome nf read (okResponse nf j) = .ofOption (read j) := by
  have hstatus : ¬ (400 : ℤ) ≤ 200 := by decide
  unfold outcome parseJsonResponse okResponse
  dsimp only
  rw [if_neg hstatus, hfl.parse_dump h]

/-- A member that is an array, each element of which is read. -/
theorem readEach_single {α : Type} {read : Json D → Option α} (k : Utf8Text) (items : List (Json D)) :
    readEach read (.obj (ofPairs [(k, .arr items)])) k = items.mapM read := by
  have hn : ([(k, (.arr items : Json D))].map Prod.fst).Nodup := List.nodup_singleton k
  rw [readEach, Json.find, Keyed.lookup_ofPairs hn List.mem_cons_self]
  rfl

theorem wellFormed_single {k : Utf8Text} {j : Json D} (h : Json.WellFormed j) :
    Json.WellFormed (.obj (ofPairs [(k, j)])) :=
  Json.wellFormed_ofPairs (List.forall_mem_singleton.mpr h)

theorem outcome_items {α β : Type} (hfl : nf.text.Lawful) {write : β → Option (Json D)} {read : Json D → Option α}
    (hwrite : ∀ b j, write b = some j → Json.WellFormed j ∧ read j = none) {bs : List β} {items : List (Json D)}
    (h : bs.mapM write = some items) (k : Utf8Text) :
    outcome nf (fun j => readEach read j k) (okResponse nf (.obj (ofPairs [(k, .arr items)]))) =
      if bs = [] then .ok [] else .thrown := by
  obtain ⟨hwell, hread⟩ := mapM_items hwrite h
  rw [outcome_ok hfl _ (wellFormed_single hwell), readEach_single, hread]
  split <;> rfl

theorem outcome_store (hfl : nf.text.Lawful) (ids : List UInt64) :
    outcome nf (readStore nf) (okResponse nf (answerStore ids)) = if ids = [] then .ok ⟨[], true⟩ else .thrown := by
  have hn : ([(Key.memoryIds, (.arr (ids.map fun id => .str (idString id)) : Json D)),
      (Key.asyncRefinementScheduled, .bool true)].map Prod.fst).Nodup :=
    show [Key.memoryIds, Key.asyncRefinementScheduled].Nodup by decide
  have hwell : Json.WellFormed (answerStore ids : Json D) := by
    refine Json.wellFormed_ofPairs (List.forall_mem_cons.mpr ⟨.arr fun j hj => ?_,
      List.forall_mem_singleton.mpr (.bool _)⟩)
    obtain ⟨id, -, rfl⟩ := List.mem_map.mp hj
    exact .str _
  rw [outcome_ok hfl _ hwell, readStore, idsOf, answerStore, Json.find, Keyed.lookup_ofPairs hn List.mem_cons_self]
  cases ids with
  | nil =>
    rw [if_pos rfl, valueBool, Keyed.lookup_ofPairs hn (List.mem_cons_of_mem _ (List.mem_singleton_self _))]
    rfl
  | cons id ids =>
    rw [if_neg (List.cons_ne_nil _ _)]
    dsimp only
    rw [elements, List.map_cons, mapM_eq_none (getUInt64_str _)]
    rfl

theorem wellFormed_ids (ids : List UInt64) : Json.WellFormed (.arr (ids.map idNumber) : Json D) := by
  refine .arr fun j hj => ?_
  obtain ⟨id, -, rfl⟩ := List.mem_map.mp hj
  exact wellFormed_idNumber id

theorem outcome_intercept (hfl : nf.text.Lawful) (ids : Option (List UInt64)) :
    outcome nf (readIntercept nf) (okResponse nf (answerIntercept ids)) = .ok (ids.getD []) := by
  cases ids with
  | none =>
    have habsent : ∀ e ∈ [(Key.captureScheduled, (.bool true : Json D))], e.1 ≠ Key.capturedIds :=
      List.forall_mem_singleton.mpr (show Key.captureScheduled ≠ Key.capturedIds by decide)
    have hwell : Json.WellFormed (answerIntercept none : Json D) := wellFormed_single (.bool true)
    rw [outcome_ok hfl _ hwell, readIntercept, idsOf, answerIntercept, Json.find,
      Keyed.lookup_ofPairs_none habsent]
    rfl
  | some ids =>
    have hn : ([(Key.captureScheduled, (.bool true : Json D)), (Key.capturedIds, .arr (ids.map idNumber))].map
        Prod.fst).Nodup := show [Key.captureScheduled, Key.capturedIds].Nodup by decide
    have hwell : Json.WellFormed (answerIntercept (some ids) : Json D) :=
      Json.wellFormed_ofPairs (List.forall_mem_cons.mpr ⟨.bool _, List.forall_mem_singleton.mpr (wellFormed_ids ids)⟩)
    rw [outcome_ok hfl _ hwell, readIntercept, idsOf, answerIntercept, Json.find,
      Keyed.lookup_ofPairs hn (List.mem_cons_of_mem _ (List.mem_singleton_self _))]
    dsimp only
    rw [elements, mapM_idNumber]
    rfl

theorem outcome_delete (hfl : nf.text.Lawful) {descendants : List UInt64} (hlen : descendants.length < 2 ^ 64) :
    outcome nf (readDelete nf) (okResponse nf (answerDelete descendants)) =
      .ok ⟨true, UInt64.ofNat descendants.length, descendants⟩ := by
  have hn : ([(Key.deleted, (.bool true : Json D)), (Key.invalidatedCount, .int descendants.length),
      (Key.invalidatedIds, .arr (descendants.map idNumber))].map Prod.fst).Nodup :=
    show [Key.deleted, Key.invalidatedCount, Key.invalidatedIds].Nodup by decide
  have hwell : Json.WellFormed (answerDelete descendants : Json D) :=
    Json.wellFormed_ofPairs (List.forall_mem_cons.mpr ⟨.bool _, List.forall_mem_cons.mpr
      ⟨wellFormed_nat hlen, List.forall_mem_singleton.mpr (wellFormed_ids descendants)⟩⟩)
  have hids := Keyed.lookup_ofPairs hn (List.mem_cons_of_mem _ (List.mem_cons_of_mem _ (List.mem_singleton_self _)))
  have hcount := Keyed.lookup_ofPairs hn (List.mem_cons_of_mem _ List.mem_cons_self)
  rw [outcome_ok hfl _ hwell, readDelete, idsOf, answerDelete, valueBool, Keyed.lookup_ofPairs hn List.mem_cons_self,
    valueUInt64, hcount, Json.find, hids]
  have hnat : UInt64.ofInt (descendants.length : ℤ) = UInt64.ofNat descendants.length := by
    have hback := Json.ofInt_toNat64 (UInt64.ofNat descendants.length)
    rwa [UInt64.toNat_ofNat_of_lt' hlen] at hback
  dsimp only
  rw [elements, mapM_idNumber, toInt, Option.map_some, hnat]
  rfl

theorem outcome_sessionStart (hfl : nf.text.Lawful) (id : UInt64) :
    outcome nf (readSessionStart nf) (okResponse nf (answerSessionStart id)) = .ok id := by
  have hn : ([(Key.sessionId, (idNumber id : Json D))].map Prod.fst).Nodup := List.nodup_singleton _
  have hwell : Json.WellFormed (answerSessionStart id : Json D) := wellFormed_single (wellFormed_idNumber id)
  rw [outcome_ok hfl _ hwell, readSessionStart, answerSessionStart, valueUInt64,
    Keyed.lookup_ofPairs hn List.mem_cons_self]
  exact congrArg Outcome.ofOption (congrArg some (Json.ofInt_toNat64 id))

/-- **What the SDK returns**: no memory it stored, recalled or read, since it throws where
one is in the answer; what was captured, what a removal invalidated and the session that
started come through. -/
theorem outcome_answer [Zero F] (hfl : nf.text.Lawful) :
    (∀ ids, outcome nf (readStore nf) (okResponse nf (answerStore ids)) =
      if ids = [] then .ok ⟨[], true⟩ else .thrown) ∧
    (∀ ss j, answerRecall nf ss = some j →
      outcome nf (readRecall nf) (okResponse nf j) = if ss = [] then .ok [] else .thrown) ∧
    (∀ r j, handleGetMemory nf r = some j → outcome nf (readMemory nf) (okResponse nf j) = .thrown) ∧
    (∀ rs j, handleGetHistory rs = some j →
      outcome nf (readHistory nf) (okResponse nf j) = if rs = ([] : List (MemoryRecord F)) then .ok [] else .thrown) ∧
    (∀ ids, outcome nf (readIntercept nf) (okResponse nf (answerIntercept ids)) = .ok (ids.getD [])) ∧
    (∀ ids, ids.length < 2 ^ 64 → outcome nf (readDelete nf) (okResponse nf (answerDelete ids)) =
      .ok ⟨true, UInt64.ofNat ids.length, ids⟩) ∧
    (∀ id, outcome nf (readSessionStart nf) (okResponse nf (answerSessionStart id)) = .ok id) := by
  refine ⟨outcome_store hfl, fun ss j h => ?_, fun r j h => ?_, fun rs j h => ?_, outcome_intercept hfl,
    fun ids h => outcome_delete hfl h, outcome_sessionStart hfl⟩
  · obtain ⟨items, hitems, rfl⟩ := Option.map_eq_some_iff.mp h
    refine outcome_items hfl (fun s j hs => ?_) hitems Key.results
    obtain ⟨hwell, hid⟩ := recallItem_spec hs
    refine ⟨hwell, ?_⟩
    rw [readItem, hid]
    rfl
  · obtain ⟨hwell, hid⟩ := handleGetMemory_spec h
    rw [outcome_ok hfl _ hwell, readMemory, hid]
    rfl
  · obtain ⟨items, hitems, rfl⟩ := Option.map_eq_some_iff.mp h
    refine outcome_items hfl (fun r j hr => ?_) hitems Key.versions
    obtain ⟨hwell, hid⟩ := versionItem_spec hr
    refine ⟨hwell, ?_⟩
    rw [readVersion, hid]
    rfl

end Thrown

/-- A memory that was stored: the client throws. -/
theorem outcome_stored :
    outcome Numbers.whole (readStore Numbers.whole) (okResponse Numbers.whole (answerStore [7])) = .thrown :=
  (outcome_answer RawRecord.lawful_whole.text).1 [7]

end Sdk
end Amind
