/-
# Memory events

What the parts of the engine log, and the shortening of texts for it.
-/
import Amind.Core.MemoryRecord

namespace Amind
namespace Observability

open Amind.Core

inductive EventKind
  | store | embed | gate | derive | reconcile | lineagePropagate | graphEdge | versionUpdate
  | recall | recallSemantic | recallFilter | recallStale
  | gcDecay | gcArchive | gcTombstone | gcVacuum | consolidate | resurrect
  | providerCall | error
  deriving DecidableEq, Repr

inductive EventStatus
  | ok | rejected | deferred | failed | noOp
  deriving DecidableEq, Repr

/-- An event, before the log gives it an id. The attributes are in the order of
their keys. -/
structure MemoryEvent where
  parentEventId : UInt64 := 0
  traceId : UInt64 := 0
  memoryId : UInt64 := 0
  timestampMs : UInt64 := 0
  durationMs : UInt32 := 0
  agentId : Text := []
  kind : EventKind := .store
  status : EventStatus := .ok
  summary : Text := []
  attrs : List (String × Text) := []
  deriving DecidableEq

/-- The last place at or before `cut` where a code point starts. -/
def codePointStart (s : Text) : ℕ → ℕ
  | 0 => 0
  | cut + 1 => if (s[cut + 1]?).any (fun b => b &&& 0xC0 = 0x80) then codePointStart s cut else cut + 1

/-- The text, cut after at most so many bytes. -/
def truncateUtf8 (s : Text) (maxBytes : ℕ) : Text :=
  if s.length ≤ maxBytes then s else s.take (codePointStart s maxBytes) ++ Utf8.bytes "…"

end Observability
end Amind
