/-
# Sessions

A session belongs to the agent and the user it was started for. A turn of it that
is long enough is given to the model, which answers with the facts in it; the
manager captures each of them for the session's agent, with the one pipeline it
was made with.
-/
import Amind.Core.Snowflake
import Amind.Sessions.Wal

namespace Amind
namespace Sessions

open Amind.Core Json

def SESSION_TTL_SEC : UInt32 := 3600

/-- Sessions that can be active at once. -/
def MAX_ACTIVE : ℕ := 1000

structure SessionManager where
  sessions : AList fun _ : UInt64 => Session
  idGen : SnowflakeGenerator

namespace SessionManager

/-- A manager with no sessions. -/
def new : SessionManager := ⟨∅, SnowflakeGenerator.make 1 (by decide)⟩

/-- Drop the sessions that were closed long ago. -/
def purge (m : SessionManager) (now : UInt32) : SessionManager :=
  { m with
    sessions := m.sessions.keys.foldl (fun ss id =>
      if (ss.lookup id).any fun s => !s.active && SESSION_TTL_SEC < now - s.lastTurnAt then ss.erase id else ss)
      m.sessions }

/-- Start a session. It is refused if too many are active, and there is none if
no id can be drawn. -/
def startSession (m : SessionManager) (agentId userId : Utf8Text) (clock : List ℤ) (now : UInt32) :
    SessionManager × Option Session :=
  let m := m.purge now
  if MAX_ACTIVE ≤ (m.sessions.entries.filter fun e => e.2.active).length then (m, none)
  else
    match m.idGen.nextId clock with
    | .returned id g =>
      let s : Session := { sessionId := id, agentId := agentId, userId := userId, startedAt := now, lastTurnAt := now }
      ({ sessions := m.sessions.insert id s, idGen := g }, some s)
    | _ => (m, none)

/-- Count a turn of an active session. The result is the session as it is then. -/
def beginTurn (m : SessionManager) (id : UInt64) (now : UInt32) : SessionManager × Option Session :=
  match m.sessions.lookup id with
  | some s =>
    if s.active then
      let s := { s with turnCount := s.turnCount + 1, lastTurnAt := now }
      ({ m with sessions := m.sessions.insert id s }, some s)
    else (m, none)
  | none => (m, none)

def closeSession (m : SessionManager) (id : UInt64) : SessionManager :=
  match m.sessions.lookup id with
  | some s => { m with sessions := m.sessions.insert id { s with active := false } }
  | none => m

end SessionManager

/-- The texts up to the first element that is none. -/
def texts {D : Type} : List (Json D) → List Bytes
  | .str s :: js => s.val :: texts js
  | _ => []

/-- The facts in the model's answer to a turn. -/
def extractedFacts {D : Type} (fl : Library D) (userInput : Bytes) (answer : Option Bytes) : List Bytes :=
  if userInput.length ≤ 10 then []
  else
    match (answer.bind fl.parse).bind (·.find (Utf8.lit "facts")) with
    | some (.arr js) => (texts js).filter (· ≠ [])
    | _ => []

end Sessions
end Amind
