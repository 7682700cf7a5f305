/-
# Importing memories

A backup is a text with an object on each line. A line is read field by field,
with a default for each that is missing, and stored as it says: under its id,
and for its agent. A line that cannot be read is passed over.
-/
import Amind.Core.MemoryRecord
import Amind.Core.RecordCodec

namespace Amind
namespace Memory

open Amind.Core Json

section Import

variable {F D : Type} (nf : Numbers F D)

/-- The member of an object under a key, or a default. Reading a value of another
type throws, and so does one that is no object. -/
def member {α : Type} (j : Json D) (key : String) (get : Json D → Option α) (otherwise : α) : Option α :=
  match j with
  | .obj _ =>
    match j.find (Utf8.lit key) with
    | some v => get v
    | none => some otherwise
  | _ => none

/-- A member is read back. -/
theorem member_ofPairs {α : Type} {ms : List (Utf8Text × Json D)} (hn : (ms.map Prod.fst).Nodup) {key : String}
    {v : Json D} (h : (Utf8.lit key, v) ∈ ms) (get : Json D → Option α) (otherwise : α) :
    member (.obj (Keyed.ofPairs ms)) key get otherwise = get v := by
  rw [member, find, Keyed.lookup_ofPairs hn h]

def getText : Json D → Option Text
  | .str s => some s.val
  | _ => none

def phaseFromString (s : Text) : MemoryPhase :=
  if s = Utf8.bytes "Versioned" then .versioned
  else if s = Utf8.bytes "Archived" then .archived
  else if s = Utf8.bytes "Tombstone" then .tombstone
  else .active

def confidenceFromString (s : Text) : Confidence :=
  if s = Utf8.bytes "Verified" then .verified
  else if s = Utf8.bytes "Stale" then .stale
  else if s = Utf8.bytes "Conflicted" then .conflicted
  else .inferred

/-- The embedding, if there is one. -/
def getEmbedding (j : Json D) : Option (List F) :=
  match j.find (Utf8.lit "embedding") with
  | some (.arr js) => js.mapM (toFloat nf)
  | _ => some []

/-- The record of a line. Scores that are not given are `half`. -/
def importRecord [Zero F] (half : F) (j : Json D) : Option (MemoryRecord F) := do
  let memoryId ← member j "memory_id" (fun v => (toInt nf v).map UInt64.ofInt) 0
  let content ← member j "content" getText []
  let agentId ← member j "agent_id" getText (Utf8.bytes "default_agent")
  let userId ← member j "user_id" getText (Utf8.bytes "anonymous")
  let scope ← member j "scope" getText (Utf8.bytes "private")
  let memoryType ← member j "memory_type" getText (Utf8.bytes "ephemeral")
  let tier ← member j "tier" getText (Utf8.bytes "ephemeral")
  let importance ← member j "importance" (toFloat nf) half
  let memVersion ← member j "version" (fun v => (toIntOrBool nf v).map UInt32.ofInt) 1
  let parentId ← member j "parent_id" (fun v => (toInt nf v).map UInt64.ofInt) 0
  let createdAt ← member j "created_at" (fun v => (toIntOrBool nf v).map UInt32.ofInt) 0
  let lastAccessed ← member j "last_accessed" (fun v => (toIntOrBool nf v).map UInt32.ofInt) 0
  let accessCount ← member j "access_count" (fun v => (toIntOrBool nf v).map UInt32.ofInt) 0
  let sourceTurn ← member j "source_turn" (fun v => (toIntOrBool nf v).map UInt16.ofInt) 0
  let flags ← member j "flags" (fun v => (toIntOrBool nf v).map UInt16.ofInt) RecordFlags.ALIVE
  let phase ← member j "phase" getText (Utf8.bytes "Active")
  let confidence ← member j "confidence" getText (Utf8.bytes "Inferred")
  let embedding ← getEmbedding nf j
  pure { MemoryRecord.zero with
    memoryId := memoryId
    content := content
    agentId := agentId
    userId := userId
    scope := scopeFromString scope
    memoryType := memoryTypeFromString memoryType
    tier := memoryTierFromString tier
    importance := importance
    confidenceScore := half
    memVersion := memVersion
    parentId := parentId
    createdAt := createdAt
    lastAccessed := lastAccessed
    accessCount := accessCount
    sourceTurn := sourceTurn
    flags := flags
    phase := phaseFromString phase
    confidenceLevel := confidenceFromString confidence
    embedding := embedding }

def importLine [Zero F] (half : F) (line : Text) : Option (MemoryRecord F) :=
  (nf.text.parse line).bind (importRecord nf half)

end Import

/-- The lines of a text that are not empty. -/
def importLines (jsonl : Text) : List Text := (jsonl.splitOn 0x0A).filter (· ≠ [])

end Memory
end Amind
