/-
# Taking a memory in

What is said to an agent is captured in two stages. The first looks at the
text alone: noise is dropped, a request to forget is carried out, and anything
else is stored at once, without an embedding. The second stage is scheduled
for later.

The regular expressions of the first stage are a parameter.
-/
import Amind.Memory.Store

namespace Amind
namespace Capture

open Amind.Core Amind.Memory

/-- The regular expressions, as what they find or match. -/
structure Patterns where
  errorSignal : Text → Bool
  cnTransient : Text → Bool
  transient : Text → Bool
  enForget : Text → Bool

/-- Expressions that find nothing, as they do in texts with none of their
words. -/
def Patterns.silent : Patterns := ⟨fun _ => false, fun _ => false, fun _ => false, fun _ => false⟩

/-- Texts an error message starts with. -/
def errorPrefixes : List Text :=
  [[0xe5, 0x87, 0xba, 0xe9, 0x94, 0x99, 0xe4, 0xba, 0x86], [0xe6, 0x8a, 0xb1, 0xe6, 0xad, 0x89], [0xe2, 0x8f, 0xb3],
   Utf8.bytes "ERROR", Utf8.bytes "Error:", Utf8.bytes "[Error"]

/-- Greetings, acknowledgments and error messages. -/
def isTransientContent (p : Patterns) (content : Text) : Bool :=
  content.length < 3 ∨ (errorPrefixes.any fun e => e.isPrefixOf content) = true ∨ p.errorSignal content = true ∨
    content.length ≤ 200 ∧ (p.cnTransient content = true ∨ p.transient content = true)

/-- Texts of a request to forget, in Chinese. -/
def cnForget : List Text :=
  [[0xe8, 0xaf, 0xb7, 0xe5, 0xbf, 0x98, 0xe6, 0x8e, 0x89], [0xe8, 0xaf, 0xb7, 0xe5, 0xbf, 0x98, 0xe8, 0xae, 0xb0],
   [0xe8, 0xaf, 0xb7, 0xe5, 0x88, 0xa0, 0xe9, 0x99, 0xa4], [0xe5, 0xb8, 0xae, 0xe6, 0x88, 0x91, 0xe5, 0xbf, 0x98],
   [0xe5, 0xb8, 0xae, 0xe6, 0x88, 0x91, 0xe5, 0x88, 0xa0], [0xe5, 0xbf, 0x98, 0xe6, 0x8e, 0x89],
   [0xe5, 0xbf, 0x98, 0xe4, 0xba, 0x86, 0xe5, 0x90, 0xa7], [0xe5, 0x88, 0xa0, 0xe6, 0x8e, 0x89],
   [0xe5, 0x88, 0xab, 0xe8, 0xae, 0xb0, 0xe4, 0xba, 0x86], [0xe4, 0xb8, 0x8d, 0xe8, 0xa6, 0x81, 0xe8, 0xae, 0xb0],
   [0xe6, 0xb8, 0x85, 0xe9, 0x99, 0xa4]]

/-- The text asks to forget something. -/
def isForgetRequest (p : Patterns) (content : Text) : Bool :=
  (6 ≤ content.length ∧ content.length ≤ 500) ∧
    ((cnForget.any fun e => content.tails.any e.isPrefixOf) = true ∨ p.enForget content = true)

/-- What a text is captured with. -/
structure Request where
  content : Text
  agentId : Text
  userId : Text
  scope : MemoryScope := .private
  memoryType : MemoryType := .ephemeral
  userMetadata : StringMap := .empty

/-- The record the first stage stores. Scores that are not set are `half`. -/
def newRecord {F : Type} [Zero F] (half : F) (q : Request) : MemoryRecord F :=
  { MemoryRecord.zero with
    agentId := q.agentId
    userId := q.userId
    scope := q.scope
    memoryType := q.memoryType
    tier := .working
    content := q.content
    confidenceLevel := .inferred
    userMetadata := q.userMetadata
    confidenceScore := half
    importance := half }

end Capture
end Amind
