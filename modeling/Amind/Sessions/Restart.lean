/-
# Sessions after a restart

A manager that is restarted has the sessions its log is replayed to. The log
tells of starts, of turns and of closings; setting the number of a session's
turns and adding a memory to it are not logged. `recordTurn` counts the turn
before the model is asked about it and records it after that, without asking
again whether the session is active; a turn the model fails on is counted and
never recorded.

`durable_run` says in which runs every session comes back as it was and no turn
is recorded in a session that was closed.
-/
import Amind.Lib.JsonIndent
import Amind.Lib.Run
import Amind.Sessions.Manager

namespace Amind
namespace Sessions

open Amind.Core Json
open Keyed (ofPairs)
open Run (run Along)

/-! ### The log replayed -/

/-- Change a session, if there is one of that id. -/
def change (sessions : SessionMap) (id : UInt64) (f : Session → Session) : SessionMap :=
  match sessions.lookup id with
  | none => sessions
  | some s => sessions.insert id (f s)

theorem lookup_change (sessions : SessionMap) (id : UInt64) (f : Session → Session) (id' : UInt64) :
    (change sessions id f).lookup id' = if id' = id then (sessions.lookup id).map f else sessions.lookup id' := by
  unfold change
  by_cases h : id' = id
  · subst h
    cases hs : sessions.lookup id' with
    | none => simp [hs]
    | some s => simp [AList.lookup_insert]
  · cases hs : sessions.lookup id with
    | none => simp [h]
    | some s => simp [h, AList.lookup_insert_ne h]

def Session.closed (s : Session) : Session := { s with active := false }

/-- The sessions after an event. -/
def WalRecord.applyTo (sessions : SessionMap) : WalRecord → SessionMap
  | .start id agentId userId startedAt =>
    sessions.insert id { sessionId := id, agentId, userId, startedAt, lastTurnAt := startedAt }
  | .turn id t => change sessions id fun s => s.addTurn t
  | .close id => change sessions id Session.closed

section Log

variable {D : Type} (fl : Library D) (trunc : D → ℤ)

theorem nodup_members (r : WalRecord) : ((r.members : List (Utf8Text × Json D)).map Prod.fst).Nodup := by
  have hstart : [Field.op, Field.sessionId, Field.agentId, Field.userId, Field.startedAt].Nodup := by decide
  have hturn : [Field.op, Field.sessionId, Field.turnNumber, Field.userInput, Field.agentResponse,
      Field.detectedIntent, Field.extractedMemoryIds, Field.timestamp].Nodup := by decide
  have hclose : [Field.op, Field.sessionId].Nodup := by decide
  cases r with
  | start id agentId userId startedAt => exact hstart
  | turn id t => exact hturn
  | close id => exact hclose

/-- A member is found in the object. -/
theorem valueOr_toJson {α : Type} {r : WalRecord} {k : Utf8Text} {v : Json D} (h : (k, v) ∈ (r.members : List _))
    (default : α) (get : Json D → Option α) : valueOr r.toJson k default get = get v := by
  rw [WalRecord.toJson, valueOr, Keyed.lookup_ofPairs (nodup_members r) h]

theorem valueOr_absent {α : Type} {r : WalRecord} {k : Utf8Text}
    (h : ∀ e ∈ (r.members : List (Utf8Text × Json D)), e.1 ≠ k)
    (default : α) (get : Json D → Option α) : valueOr r.toJson k default get = some default := by
  rw [WalRecord.toJson, valueOr, Keyed.lookup_ofPairs_none h]

theorem sessionOf_toJson {r : WalRecord} (id : UInt64)
    (h : (Field.sessionId, Json.int id.toNat) ∈ (r.members : List (Utf8Text × Json D))) :
    sessionOf trunc (r.toJson : Json D) = some id := by
  rw [sessionOf, WalRecord.toJson, find, Keyed.lookup_ofPairs (nodup_members r) h, Option.bind_some, toInt,
    Option.map_some, ofInt_toNat64]

theorem toIds_ids (ids : List UInt64) : toIds trunc (.arr (ids.map fun id => .int id.toNat)) = some ids := by
  rw [toIds]
  induction ids with
  | nil => rfl
  | cons id ids ih =>
    rw [List.map_cons, List.mapM_cons, ih]
    exact congrArg (fun n => some (n :: ids)) (ofInt_toNat64 id)

theorem readStart_toJson (id : UInt64) (agentId userId : Utf8Text) (startedAt : UInt32) :
    readStart trunc ((WalRecord.start id agentId userId startedAt).toJson : Json D) =
      some { sessionId := id, agentId, userId, startedAt, lastTurnAt := startedAt } := by
  have habsent : ∀ e ∈ ((WalRecord.start id agentId userId startedAt).members : List (Utf8Text × Json D)),
      e.1 ≠ Field.namespaceName := by
    have hkeys : ∀ k ∈ [Field.op, Field.sessionId, Field.agentId, Field.userId, Field.startedAt],
        k ≠ Field.namespaceName := by decide
    exact fun e he => hkeys e.1 (List.mem_map_of_mem (f := Prod.fst) he)
  have hagent := fun d => valueOr_toJson (D := D) (r := .start id agentId userId startedAt) (k := Field.agentId)
    (v := .str agentId) (by simp [WalRecord.members]) d toText
  have huser := valueOr_toJson (D := D) (r := .start id agentId userId startedAt) (k := Field.userId)
    (v := .str userId) (by simp [WalRecord.members]) Word.anonymous toText
  have hstarted := valueOr_toJson (D := D) (r := .start id agentId userId startedAt) (k := Field.startedAt)
    (v := .int startedAt.toNat) (by simp [WalRecord.members]) 0 fun v => (toIntOrBool trunc v).map UInt32.ofInt
  unfold readStart
  rw [sessionOf_toJson trunc id (by simp [WalRecord.members]), valueOr_absent habsent]
  simp only [hagent, huser, hstarted]
  simp only [toText, toIntOrBool, toInt, Option.map_some, ofInt_toNat32]
  rfl

theorem readTurn_toJson (id : UInt64) (t : TurnRecord) :
    readTurn trunc ((WalRecord.turn id t).toJson : Json D) = some t := by
  unfold readTurn
  rw [valueOr_toJson (v := .int t.turnNumber.toNat) (by simp [WalRecord.members]),
    valueOr_toJson (v := .str t.userInput) (by simp [WalRecord.members]),
    valueOr_toJson (v := .str t.agentResponse) (by simp [WalRecord.members]),
    valueOr_toJson (v := .str t.detectedIntent) (by simp [WalRecord.members]),
    valueOr_toJson (v := .int t.timestamp.toInt) (by simp [WalRecord.members]),
    valueOr_toJson (v := .arr (t.extractedMemoryIds.map fun id => .int id.toNat)) (by simp [WalRecord.members]),
    toIds_ids]
  simp only [toText, toIntOrBool, toInt, Option.map_some, ofInt_toNat32, Int64.ofInt_toInt]
  rfl

theorem applyEntry_toJson (sessions : SessionMap) (r : WalRecord) :
    applyEntry trunc sessions (r.toJson : Json D) = some (r.applyTo sessions) := by
  have hop : ∀ w, (Field.op, .str w) ∈ (r.members : List (Utf8Text × Json D)) →
      valueOr (r.toJson : Json D) Field.op Word.empty toText = some w := by
    intro w h
    rw [valueOr_toJson h, toText]
  have hturn : Word.turn ≠ Word.start := by decide
  have hclose : Word.close ≠ Word.start ∧ Word.close ≠ Word.turn := by decide
  unfold applyEntry
  cases r with
  | start id agentId userId startedAt =>
    rw [hop Word.start (by simp [WalRecord.members]), Option.bind_some, if_pos rfl, readStart_toJson]
    rfl
  | turn id t =>
    rw [hop Word.turn (by simp [WalRecord.members]), Option.bind_some, if_neg hturn, if_pos rfl,
      sessionOf_toJson trunc id (by simp [WalRecord.members]), Option.bind_some, WalRecord.applyTo, change]
    cases sessions.lookup id with
    | none => rfl
    | some s =>
      dsimp only
      rw [readTurn_toJson]
      rfl
  | close id =>
    rw [hop Word.close (by simp [WalRecord.members]), Option.bind_some, if_neg hclose.1, if_neg hclose.2, if_pos rfl,
      sessionOf_toJson trunc id (by simp [WalRecord.members])]
    rfl

/-- A log of events is replayed as the events. -/
theorem replay_lines (hfl : fl.Lawful) (rs : List WalRecord) :
    replay trunc fl (rs.flatMap (line fl)) = rs.foldl WalRecord.applyTo ∅ := by
  have hentries := entries_append hfl [] rs
  rw [List.append_nil, entries_nil, List.append_nil] at hentries
  unfold replay
  rw [hentries, List.foldl_map]
  simp only [applyEntry_toJson, Option.getD_some]

end Log

/-! ### The manager with its log -/

/-- A call of `recordTurn` that has counted its turn and waits for the model;
`session` is the copy it made. -/
structure Call where
  sessionId : UInt64
  session : Session
  userInput : Utf8Text
  agentResponse : Utf8Text

namespace Call

/-- The model is asked for the intent. -/
def needsIntent (llm : Bool) (c : Call) : Bool := llm && 2 ≤ c.session.turns.length

/-- The model is asked for facts. -/
def needsFacts (llm : Bool) (c : Call) : Bool := llm && 10 < c.userInput.val.length

/-- The turn that is recorded, after the model's answers came to this intent and
these memories. -/
def turn (llm : Bool) (c : Call) (intent : Utf8Text) (extractedIds : List UInt64) : TurnRecord where
  turnNumber := c.session.turnCount.toUInt32
  userInput := c.userInput
  agentResponse := c.agentResponse
  detectedIntent := if c.needsIntent llm then intent else Word.empty
  extractedMemoryIds := if c.needsFacts llm then extractedIds else []
  timestamp := Int64.ofInt c.session.lastTurnAt.toNat

end Call

/-- The session after a turn is recorded in it. It was counted before. -/
def Session.record (s : Session) (t : TurnRecord) : Session :=
  { s with
    currentIntent := if t.detectedIntent = Word.empty then s.currentIntent else t.detectedIntent
    memoryIds := s.memoryIds ++ t.extractedMemoryIds
    turns := s.turns ++ [t] }

/-- A running manager, its log, and the calls that are between their phases.
`finished` are the sessions that `closeSession` returned for since they were
started, and `late` the turns that were recorded in such a session. -/
structure Running where
  manager : SessionManager
  wal : Bytes := []
  calls : List Call := []
  finished : List UInt64 := []
  late : List (UInt64 × TurnRecord) := []

inductive SessionOp
  | startSession (agentId userId : Utf8Text) (clock : List ℤ) (now : UInt32)
  | beginTurn (id : UInt64) (userInput agentResponse : Utf8Text) (now : UInt32)
  | endTurn (call : ℕ) (intent : Utf8Text) (extractedIds : List UInt64)
  | failTurn (call : ℕ)
  | recordTurnNumber (id : UInt64) (turnNum : UInt16) (now : UInt32)
  | addMemoryToSession (id memoryId : UInt64)
  | closeSession (id : UInt64)
  | restart

namespace Running

section Step

variable {D : Type} (fl : Library D) (trunc : D → ℤ) (llm : Bool)

/-- Change a session of the manager. -/
def modify (x : Running) (id : UInt64) (f : Session → Session) : Running :=
  { x with manager := { x.manager with sessions := change x.manager.sessions id f } }

def log (x : Running) (r : WalRecord) : Running := { x with wal := x.wal ++ line fl r }

/-- The sessions a manager restarted now has. -/
def restored (x : Running) : SessionMap := replay trunc fl x.wal

/-- A turn is recorded, whether or not its session is active by now. -/
def recordTurn (x : Running) (c : Call) (t : TurnRecord) : Running :=
  if c.sessionId ∈ x.manager.sessions then
    { (x.modify c.sessionId fun s => s.record t).log fl (.turn c.sessionId t) with
      late := if c.sessionId ∈ x.finished then (c.sessionId, t) :: x.late else x.late }
  else x

def step (x : Running) : SessionOp → Running
  | .startSession agentId userId clock now =>
    match x.manager.startSession agentId userId clock now with
    | (m, some s) =>
      { x.log fl (.start s.sessionId s.agentId s.userId s.startedAt) with
        manager := m
        finished := x.finished.filter (· ≠ s.sessionId) }
    | (m, none) => { x with manager := m }
  | .beginTurn id userInput agentResponse now =>
    match x.manager.beginTurn id now with
    | (m, some s) => { x with manager := m, calls := ⟨id, s, userInput, agentResponse⟩ :: x.calls }
    | (m, none) => { x with manager := m }
  | .endTurn k intent extractedIds =>
    match x.calls[k]? with
    | some c => { x with calls := x.calls.eraseIdx k }.recordTurn fl c (c.turn llm intent extractedIds)
    | none => x
  | .failTurn k => { x with calls := x.calls.eraseIdx k }
  | .recordTurnNumber id turnNum now =>
    x.modify id fun s => if s.active then { s with turnCount := turnNum, lastTurnAt := now } else s
  | .addMemoryToSession id memoryId => x.modify id fun s => { s with memoryIds := s.memoryIds ++ [memoryId] }
  | .closeSession id =>
    if id ∈ x.manager.sessions then
      { { x with manager := x.manager.closeSession id }.log fl (.close id) with finished := id :: x.finished }
    else x
  | .restart => { x with manager := { SessionManager.new with sessions := x.restored fl trunc }, calls := [] }

/-- A manager on a new directory. -/
def start : Running := { manager := SessionManager.new }

end Step

/-! ### What comes back -/

/-- The sessions are the same, up to their ids and times. -/
structure SameSession (s s' : Session) : Prop where
  agentId : s.agentId = s'.agentId
  userId : s.userId = s'.userId
  turns : s.turns = s'.turns
  turnCount : s.turnCount = s'.turnCount
  memoryIds : s.memoryIds = s'.memoryIds
  currentIntent : s.currentIntent = s'.currentIntent
  active : s.active = s'.active

/-- A manager that is restarted has every session with no call of `recordTurn`
under way, and no turn was recorded in a session that was closed. -/
structure Durable {D : Type} (fl : Library D) (trunc : D → ℤ) (x : Running) : Prop where
  restored : ∀ id s, x.manager.sessions.lookup id = some s → (∀ c ∈ x.calls, c.sessionId ≠ id) →
    ∃ s', (x.restored fl trunc).lookup id = some s' ∧ SameSession s s'
  inTime : x.late = []

/-- The step does what the log can tell: no call is under way on a session that
is closed, or whose id is drawn again, the model fails on no turn of a session
there is, and an active session gets no other number of turns and no session a
memory. -/
def Tells (x : Running) : SessionOp → Prop
  | .startSession agentId userId clock now =>
    ∀ s ∈ (x.manager.startSession agentId userId clock now).2, ∀ c ∈ x.calls, c.sessionId ≠ s.sessionId
  | .beginTurn _ _ _ _ => True
  | .endTurn _ _ _ => True
  | .failTurn k => ∀ c ∈ x.calls[k]?, c.sessionId ∉ x.manager.sessions
  | .recordTurnNumber id turnNum _ =>
    ∀ s ∈ x.manager.sessions.lookup id, s.active = true → turnNum = s.turnCount
  | .addMemoryToSession id _ => id ∉ x.manager.sessions
  | .closeSession id => ∀ c ∈ x.calls, c.sessionId ≠ id
  | .restart => True

instance (x : Running) : ∀ o, Decidable (x.Tells o)
  | .startSession agentId userId clock now => inferInstanceAs
      (Decidable (∀ s ∈ (x.manager.startSession agentId userId clock now).2, ∀ c ∈ x.calls, c.sessionId ≠ s.sessionId))
  | .beginTurn _ _ _ _ | .endTurn _ _ _ => inferInstanceAs (Decidable True)
  | .failTurn k => inferInstanceAs (Decidable (∀ c ∈ x.calls[k]?, c.sessionId ∉ x.manager.sessions))
  | .recordTurnNumber id turnNum _ => inferInstanceAs
      (Decidable (∀ s ∈ x.manager.sessions.lookup id, s.active = true → turnNum = s.turnCount))
  | .addMemoryToSession id _ => inferInstanceAs (Decidable (id ∉ x.manager.sessions))
  | .closeSession id => inferInstanceAs (Decidable (∀ c ∈ x.calls, c.sessionId ≠ id))
  | .restart => inferInstanceAs (Decidable True)

/-- The calls under way on a session. -/
def pending (x : Running) (id : UInt64) : ℕ := x.calls.countP fun c => c.sessionId = id

/-- The session is the restored one, with `n` turns counted that are not recorded
yet. -/
structure Ahead (n : ℕ) (s s' : Session) : Prop where
  agentId : s.agentId = s'.agentId
  userId : s.userId = s'.userId
  turns : s.turns = s'.turns
  turnCount : s.turnCount = s'.turnCount + UInt16.ofNat n
  memoryIds : s.memoryIds = s'.memoryIds
  currentIntent : s.currentIntent = s'.currentIntent
  active : s.active = s'.active

/-- What every step that the log can tell keeps. -/
structure Inv {D : Type} (fl : Library D) (trunc : D → ℤ) (x : Running) : Prop where
  logged : ∃ rs : List WalRecord, x.wal = rs.flatMap (line fl)
  ahead : ∀ id s, x.manager.sessions.lookup id = some s →
    ∃ s', (x.restored fl trunc).lookup id = some s' ∧ Ahead (x.pending id) s s'
  calling : ∀ c ∈ x.calls, ∀ s, x.manager.sessions.lookup c.sessionId = some s → s.active = true
  finished : ∀ id ∈ x.finished, (∀ s, x.manager.sessions.lookup id = some s → s.active = false) ∧
    ∀ s, (x.restored fl trunc).lookup id = some s → s.active = false
  inTime : x.late = []

section Keep

variable {D : Type} {fl : Library D} {trunc : D → ℤ} {x : Running}

theorem Inv.durable (h : Inv fl trunc x) : Durable fl trunc x where
  restored := fun id s hs hno => by
    obtain ⟨s', hs', ha⟩ := h.ahead id s hs
    have hzero : x.pending id = 0 := List.countP_eq_zero.mpr fun c hc => by simpa using hno c hc
    refine ⟨s', hs', ha.agentId, ha.userId, ha.turns, ?_, ha.memoryIds, ha.currentIntent, ha.active⟩
    rw [ha.turnCount, hzero]
    exact UInt16.add_zero _
  inTime := h.inTime

variable (trunc) in
theorem restored_log (hfl : fl.Lawful) (h : ∃ rs : List WalRecord, x.wal = rs.flatMap (line fl)) (r : WalRecord) :
    (x.log fl r).restored fl trunc = r.applyTo (x.restored fl trunc) := by
  obtain ⟨rs, hrs⟩ := h
  have hlog : (x.log fl r).wal = (rs ++ [r]).flatMap (line fl) := by simp [log, hrs]
  rw [restored, hlog, replay_lines fl trunc hfl, restored, hrs, replay_lines fl trunc hfl, List.foldl_append]
  rfl

theorem logged_log (h : ∃ rs : List WalRecord, x.wal = rs.flatMap (line fl)) (r : WalRecord) :
    ∃ rs : List WalRecord, (x.log fl r).wal = rs.flatMap (line fl) := by
  obtain ⟨rs, hrs⟩ := h
  exact ⟨rs ++ [r], by simp [log, hrs]⟩

/-- A turn is counted. -/
theorem Ahead.beginTurn {n : ℕ} {s s' : Session} (h : Ahead n s s') (now : UInt32) :
    Ahead (n + 1) { s with turnCount := s.turnCount + 1, lastTurnAt := now } s' := by
  refine ⟨h.agentId, h.userId, h.turns, ?_, h.memoryIds, h.currentIntent, h.active⟩
  show s.turnCount + 1 = s'.turnCount + UInt16.ofNat (n + 1)
  rw [h.turnCount, UInt16.ofNat_add, ← UInt16.add_assoc]
  rfl

/-- A turn that was counted is recorded, and the log has it. -/
theorem Ahead.record {n : ℕ} {s s' : Session} (h : Ahead (n + 1) s s') (t : TurnRecord) :
    Ahead n (s.record t) (s'.addTurn t) := by
  refine ⟨h.agentId, h.userId, congrArg (· ++ [t]) h.turns, ?_, congrArg (· ++ t.extractedMemoryIds) h.memoryIds, ?_,
    h.active⟩
  · show s.turnCount = s'.turnCount + 1 + UInt16.ofNat n
    have hcount := h.turnCount
    rw [hcount, UInt16.ofNat_add, UInt16.add_comm (UInt16.ofNat n), UInt16.add_assoc]
    rfl
  · show (if t.detectedIntent = Word.empty then s.currentIntent else t.detectedIntent) =
      if t.detectedIntent = Word.empty then s'.currentIntent else t.detectedIntent
    rw [h.currentIntent]

theorem pending_eraseIdx {cs : List Call} {k : ℕ} {c : Call} (hk : cs[k]? = some c) (id : UInt64) :
    (cs.countP fun c => c.sessionId = id) =
      ((cs.eraseIdx k).countP fun c => c.sessionId = id) + if c.sessionId = id then 1 else 0 := by
  obtain ⟨hlt, rfl⟩ := List.getElem?_eq_some_iff.mp hk
  have hperm := (List.getElem_cons_eraseIdx_perm hlt).countP_eq fun c => decide (c.sessionId = id)
  rw [← hperm, List.countP_cons]
  simp

/-- Sessions that are dropped from memory only. -/
theorem Inv.shrink (h : Inv fl trunc x) {m : SessionManager}
    (hm : ∀ id s, m.sessions.lookup id = some s → x.manager.sessions.lookup id = some s) :
    Inv fl trunc { x with manager := m } where
  logged := h.logged
  ahead := fun id s hs => h.ahead id s (hm id s hs)
  calling := fun c hc s hs => h.calling c hc s (hm _ s hs)
  finished := fun id hid => ⟨fun s hs => (h.finished id hid).1 s (hm id s hs), (h.finished id hid).2⟩
  inTime := h.inTime

theorem lookup_purge {m : SessionManager} {now : UInt32} {id : UInt64} {s : Session}
    (h : (m.purge now).sessions.lookup id = some s) : m.sessions.lookup id = some s := by
  refine List.foldlRecOn (motive := fun ss : SessionMap => ss.lookup id = some s → m.sessions.lookup id = some s)
    m.sessions.keys _ (fun h => h) ?_ h
  intro ss ih id' _ h
  split at h
  · by_cases hid : id = id'
    · subst hid
      rw [AList.lookup_erase] at h
      cases h
    · rw [AList.lookup_erase_ne hid] at h
      exact ih h
  · exact ih h

/-- A session is started anew, or none is. -/
theorem startSession_cases (m : SessionManager) (agentId userId : Utf8Text) (clock : List ℤ) (now : UInt32) :
    (∃ m', m.startSession agentId userId clock now = (m', none) ∧
      ∀ id s, m'.sessions.lookup id = some s → m.sessions.lookup id = some s) ∨
    ∃ m' id, m.startSession agentId userId clock now =
        (m', some { sessionId := id, agentId, userId, startedAt := now, lastTurnAt := now }) ∧
      m'.sessions.lookup id = some { sessionId := id, agentId, userId, startedAt := now, lastTurnAt := now } ∧
      ∀ id' s, id' ≠ id → m'.sessions.lookup id' = some s → m.sessions.lookup id' = some s := by
  unfold SessionManager.startSession
  dsimp only
  split
  · exact .inl ⟨_, rfl, fun _ _ => lookup_purge⟩
  · split
    · rename_i id g hid
      refine .inr ⟨_, id, rfl, AList.lookup_insert _, fun id' s hne hs => ?_⟩
      rw [AList.lookup_insert_ne hne] at hs
      exact lookup_purge hs
    · exact .inl ⟨_, rfl, fun _ _ => lookup_purge⟩

theorem wal_startSession (x : Running) (llm : Bool) (agentId userId : Utf8Text) (clock : List ℤ) (now : UInt32) :
    (x.step fl trunc llm (.startSession agentId userId clock now)).wal =
      x.wal ++ (x.manager.startSession agentId userId clock now).2.toList.flatMap fun s =>
        line fl (.start s.sessionId s.agentId s.userId s.startedAt) := by
  rw [step]
  rcases x.manager.startSession agentId userId clock now with ⟨m, _ | s⟩
  · simp
  · simp [log]

theorem Inv.startSession (hfl : fl.Lawful) (h : Inv fl trunc x) {llm : Bool} {agentId userId : Utf8Text}
    {clock : List ℤ}
    {now : UInt32} (ht : x.Tells (.startSession agentId userId clock now)) :
    Inv fl trunc (x.step fl trunc llm (.startSession agentId userId clock now)) := by
  rw [Tells] at ht
  rw [step]
  obtain ⟨m, heq, hm⟩ | ⟨m, id, heq, hnew, hm⟩ := startSession_cases x.manager agentId userId clock now
  · rw [heq]
    exact h.shrink hm
  · rw [heq] at ht ⊢
    have hfree : ∀ c ∈ x.calls, c.sessionId ≠ id := ht _ rfl
    have hlog := restored_log trunc hfl h.logged (.start id agentId userId now)
    refine ⟨logged_log h.logged _, fun id' s hs => ?_, fun c hc s hs => ?_, fun id' hid' => ?_, h.inTime⟩
    · show ∃ s', ((x.log fl _).restored fl trunc).lookup id' = some s' ∧ Ahead (x.pending id') s s'
      rw [hlog, WalRecord.applyTo]
      by_cases he : id' = id
      · subst he
        have hs : s = _ := Option.some.inj (hs.symm.trans hnew)
        subst hs
        have hzero : x.pending id' = 0 := List.countP_eq_zero.mpr fun c hc => by simpa using hfree c hc
        rw [hzero]
        exact ⟨_, AList.lookup_insert _, rfl, rfl, rfl, rfl, rfl, rfl, rfl⟩
      · rw [AList.lookup_insert_ne he]
        exact h.ahead id' s (hm id' s he hs)
    · exact h.calling c hc s (hm _ s (hfree c hc) hs)
    · obtain ⟨hin, hne⟩ := List.mem_filter.mp hid'
      have hne : id' ≠ id := of_decide_eq_true hne
      refine ⟨fun s hs => (h.finished id' hin).1 s (hm id' s hne hs), fun s hs => (h.finished id' hin).2 s ?_⟩
      have hs : ((x.log fl _).restored fl trunc).lookup id' = some s := hs
      rw [hlog, WalRecord.applyTo, AList.lookup_insert_ne hne] at hs
      exact hs

theorem beginTurn_cases (m : SessionManager) (id : UInt64) (now : UInt32) :
    m.beginTurn id now = (m, none) ∨
      ∃ s, m.sessions.lookup id = some s ∧ s.active = true ∧
        m.beginTurn id now =
          ({ m with sessions := m.sessions.insert id { s with turnCount := s.turnCount + 1, lastTurnAt := now } },
            some { s with turnCount := s.turnCount + 1, lastTurnAt := now }) := by
  unfold SessionManager.beginTurn
  cases hs : m.sessions.lookup id with
  | none => exact .inl rfl
  | some s =>
    by_cases ha : s.active = true
    · exact .inr ⟨s, rfl, ha, by simp only [ha, if_true]⟩
    · exact .inl (if_neg ha)

theorem Inv.beginTurn (h : Inv fl trunc x) {llm : Bool} {id : UInt64} {userInput agentResponse : Utf8Text}
    {now : UInt32} : Inv fl trunc (x.step fl trunc llm (.beginTurn id userInput agentResponse now)) := by
  rw [step]
  obtain heq | ⟨s₀, hs₀, hactive, heq⟩ := beginTurn_cases x.manager id now
  · rw [heq]
    exact h
  · rw [heq]
    -- the session before the turn is counted
    have hold : ∀ id' s, (x.manager.sessions.insert id
        { s₀ with turnCount := s₀.turnCount + 1, lastTurnAt := now }).lookup id' = some s →
        id' = id ∧ s = { s₀ with turnCount := s₀.turnCount + 1, lastTurnAt := now } ∨
          id' ≠ id ∧ x.manager.sessions.lookup id' = some s := by
      intro id' s hs
      by_cases he : id' = id
      · subst he
        rw [AList.lookup_insert] at hs
        exact .inl ⟨rfl, (Option.some.inj hs).symm⟩
      · rw [AList.lookup_insert_ne he] at hs
        exact .inr ⟨he, hs⟩
    refine ⟨h.logged, fun id' s hs => ?_, fun c hc s hs => ?_, fun id' hid' => ?_, h.inTime⟩
    · show ∃ s', (x.restored fl trunc).lookup id' = some s' ∧
        Ahead (List.countP (fun c => decide (c.sessionId = id')) (_ :: x.calls)) s s'
      rw [List.countP_cons]
      rcases hold id' s hs with ⟨rfl, rfl⟩ | ⟨hne, hs⟩
      · obtain ⟨s', hs', ha⟩ := h.ahead id' s₀ hs₀
        refine ⟨s', hs', ?_⟩
        simp only [decide_true, if_true]
        exact ha.beginTurn now
      · obtain ⟨s', hs', ha⟩ := h.ahead id' s hs
        refine ⟨s', hs', ?_⟩
        simp only [decide_eq_false hne.symm, if_neg Bool.false_ne_true]
        exact ha
    · rcases hold _ s hs with ⟨-, rfl⟩ | ⟨hne, hs⟩
      · exact hactive
      · rcases List.mem_cons.mp hc with rfl | hc
        · exact absurd rfl hne
        · exact h.calling c hc s hs
    · refine ⟨fun s hs => ?_, (h.finished id' hid').2⟩
      rcases hold id' s hs with ⟨rfl, rfl⟩ | ⟨-, hs⟩
      · have hclosed := (h.finished id' hid').1 s₀ hs₀
        rw [hactive] at hclosed
        cases hclosed
      · exact (h.finished id' hid').1 s hs

/-- A call that ends without a turn, when its session is gone. -/
theorem Inv.erase (h : Inv fl trunc x) {k : ℕ} (hk : ∀ c ∈ x.calls[k]?, c.sessionId ∉ x.manager.sessions) :
    Inv fl trunc { x with calls := x.calls.eraseIdx k } where
  logged := h.logged
  ahead := fun id s hs => by
    obtain ⟨s', hs', ha⟩ := h.ahead id s hs
    refine ⟨s', hs', ?_⟩
    cases hc : x.calls[k]? with
    | none =>
      have hlen : x.calls.length ≤ k := List.getElem?_eq_none_iff.mp hc
      rw [List.eraseIdx_of_length_le hlen]
      exact ha
    | some c =>
      have hne : c.sessionId ≠ id := by
        rintro rfl
        exact hk c hc (AList.lookup_isSome.mp (by rw [hs]; rfl))
      have hcount := pending_eraseIdx hc id
      rw [if_neg hne, Nat.add_zero] at hcount
      show Ahead (List.countP (fun c => decide (c.sessionId = id)) (x.calls.eraseIdx k)) s s'
      rw [← hcount]
      exact ha
  calling := fun c hc s hs => h.calling c (List.mem_of_mem_eraseIdx hc) s hs
  finished := h.finished
  inTime := h.inTime

/-- A turn that was counted is recorded, and its session is active. -/
theorem Inv.recordTurn (hfl : fl.Lawful) (h : Inv fl trunc x) {k : ℕ} {c : Call} (hk : x.calls[k]? = some c)
    {t : TurnRecord} : Inv fl trunc ({ x with calls := x.calls.eraseIdx k }.recordTurn fl c t) := by
  have hc : c ∈ x.calls := List.mem_of_getElem? hk
  unfold Running.recordTurn
  dsimp only
  split
  · rename_i hmem
    obtain ⟨s₀, hs₀⟩ := Option.isSome_iff_exists.mp (AList.lookup_isSome.mpr hmem)
    have hactive := h.calling c hc s₀ hs₀
    have hopen : c.sessionId ∉ x.finished := by
      intro hin
      have hclosed := (h.finished _ hin).1 s₀ hs₀
      rw [hactive] at hclosed
      cases hclosed
    have hlog := restored_log trunc hfl h.logged (.turn c.sessionId t)
    rw [if_neg hopen]
    refine ⟨logged_log h.logged _, fun id s hs => ?_, fun c' hc' s hs => ?_, fun id hid => ?_, h.inTime⟩
    · show ∃ s', ((x.log fl _).restored fl trunc).lookup id = some s' ∧
        Ahead (List.countP (fun c => decide (c.sessionId = id)) (x.calls.eraseIdx k)) s s'
      have hs : (change x.manager.sessions c.sessionId fun s => s.record t).lookup id = some s := hs
      rw [lookup_change] at hs
      rw [hlog, WalRecord.applyTo, lookup_change]
      have hcount := pending_eraseIdx hk id
      by_cases he : id = c.sessionId
      · subst he
        rw [if_pos rfl, hs₀] at hs
        cases hs
        obtain ⟨s', hs', ha⟩ := h.ahead _ s₀ hs₀
        rw [if_pos rfl, hs']
        rw [if_pos rfl] at hcount
        rw [show x.pending c.sessionId = _ from hcount] at ha
        exact ⟨_, rfl, ha.record t⟩
      · rw [if_neg he] at hs
        rw [if_neg he]
        rw [if_neg (Ne.symm he), Nat.add_zero] at hcount
        rw [← hcount]
        exact h.ahead id s hs
    · have hs : (change x.manager.sessions c.sessionId fun s => s.record t).lookup c'.sessionId = some s := hs
      rw [lookup_change] at hs
      split at hs
      · rw [hs₀] at hs
        cases hs
        exact hactive
      · exact h.calling c' (List.mem_of_mem_eraseIdx hc') s hs
    · have hne : id ≠ c.sessionId := by
        rintro rfl
        exact hopen hid
      refine ⟨fun s hs => ?_, fun s hs => ?_⟩
      · have hs : (change x.manager.sessions c.sessionId fun s => s.record t).lookup id = some s := hs
        rw [lookup_change, if_neg hne] at hs
        exact (h.finished id hid).1 s hs
      · have hs : ((x.log fl _).restored fl trunc).lookup id = some s := hs
        rw [hlog, WalRecord.applyTo, lookup_change, if_neg hne] at hs
        exact (h.finished id hid).2 s hs
  · rename_i hno
    refine h.erase fun c' hc' => ?_
    cases hk.symm.trans hc'
    exact hno

/-- Changes that leave every session as it is, up to its times. -/
theorem Inv.modify (h : Inv fl trunc x) {id : UInt64} {f : Session → Session}
    (hf : ∀ s n s', x.manager.sessions.lookup id = some s → Ahead n s s' → Ahead n (f s) s') :
    Inv fl trunc (x.modify id f) := by
  have hlookup : ∀ id' s, (x.modify id f).manager.sessions.lookup id' = some s →
      ∃ s₀, x.manager.sessions.lookup id' = some s₀ ∧ (s = s₀ ∨ id' = id ∧ s = f s₀) := by
    intro id' s hs
    have hs : (change x.manager.sessions id f).lookup id' = some s := hs
    rw [lookup_change] at hs
    split at hs
    · rename_i he
      obtain ⟨s₀, hs₀, rfl⟩ := Option.map_eq_some_iff.mp hs
      exact ⟨s₀, he ▸ hs₀, .inr ⟨he, rfl⟩⟩
    · exact ⟨s, hs, .inl rfl⟩
  have hahead : ∀ id' s, (x.modify id f).manager.sessions.lookup id' = some s →
      ∃ s₀ s', x.manager.sessions.lookup id' = some s₀ ∧ (x.restored fl trunc).lookup id' = some s' ∧
        Ahead (x.pending id') s₀ s' ∧ Ahead (x.pending id') s s' := by
    intro id' s hs
    obtain ⟨s₀, hs₀, heq⟩ := hlookup id' s hs
    obtain ⟨s', hs', ha⟩ := h.ahead id' s₀ hs₀
    rcases heq with rfl | ⟨rfl, rfl⟩
    · exact ⟨s, s', hs₀, hs', ha, ha⟩
    · exact ⟨s₀, s', hs₀, hs', ha, hf s₀ _ s' hs₀ ha⟩
  refine ⟨h.logged, fun id' s hs => ?_, fun c hc s hs => ?_, fun id' hid => ⟨fun s hs => ?_, (h.finished id' hid).2⟩,
    h.inTime⟩
  · obtain ⟨-, s', -, hs', -, ha⟩ := hahead id' s hs
    exact ⟨s', hs', ha⟩
  · obtain ⟨s₀, s', hs₀, -, ha₀, ha⟩ := hahead _ s hs
    rw [ha.active, ← ha₀.active]
    exact h.calling c hc s₀ hs₀
  · obtain ⟨s₀, s', hs₀, -, ha₀, ha⟩ := hahead _ s hs
    rw [ha.active, ← ha₀.active]
    exact (h.finished id' hid).1 s₀ hs₀

theorem closeSession_eq (m : SessionManager) (id : UInt64) :
    m.closeSession id = { m with sessions := change m.sessions id Session.closed } := by
  unfold SessionManager.closeSession change
  cases m.sessions.lookup id <;> rfl

theorem Inv.closeSession (hfl : fl.Lawful) (h : Inv fl trunc x) {id : UInt64} (hid : ∀ c ∈ x.calls, c.sessionId ≠ id) :
    Inv fl trunc { { x with manager := x.manager.closeSession id }.log fl (.close id) with finished := id :: x.finished } := by
  have hlog := restored_log trunc hfl h.logged (.close id)
  have hlive : ∀ id', (x.manager.closeSession id).sessions.lookup id' =
      if id' = id then (x.manager.sessions.lookup id).map Session.closed else x.manager.sessions.lookup id' := by
    intro id'
    rw [closeSession_eq]
    exact lookup_change ..
  refine ⟨logged_log h.logged _, fun id' s hs => ?_, fun c hc s hs => ?_, fun id' hid' => ?_, h.inTime⟩
  · show ∃ s', ((x.log fl _).restored fl trunc).lookup id' = some s' ∧ Ahead (x.pending id') s s'
    have hs : (x.manager.closeSession id).sessions.lookup id' = some s := hs
    rw [hlog, WalRecord.applyTo, lookup_change]
    rw [hlive] at hs
    by_cases he : id' = id
    · subst he
      rw [if_pos rfl] at hs
      obtain ⟨s₀, hs₀, rfl⟩ := Option.map_eq_some_iff.mp hs
      obtain ⟨s', hs', ha⟩ := h.ahead id' s₀ hs₀
      rw [if_pos rfl, hs']
      exact ⟨_, rfl, ha.agentId, ha.userId, ha.turns, ha.turnCount, ha.memoryIds, ha.currentIntent, rfl⟩
    · rw [if_neg he] at hs
      rw [if_neg he]
      exact h.ahead id' s hs
  · have hs : (x.manager.closeSession id).sessions.lookup c.sessionId = some s := hs
    rw [hlive, if_neg (hid c hc)] at hs
    exact h.calling c hc s hs
  · refine ⟨fun s hs => ?_, fun s hs => ?_⟩
    · have hs : (x.manager.closeSession id).sessions.lookup id' = some s := hs
      rw [hlive] at hs
      split at hs
      · obtain ⟨s₀, -, rfl⟩ := Option.map_eq_some_iff.mp hs
        rfl
      · rename_i hne
        exact (h.finished id' ((List.mem_cons.mp hid').resolve_left hne)).1 s hs
    · have hs : ((x.log fl _).restored fl trunc).lookup id' = some s := hs
      rw [hlog, WalRecord.applyTo, lookup_change] at hs
      split at hs
      · obtain ⟨s₀, -, rfl⟩ := Option.map_eq_some_iff.mp hs
        rfl
      · rename_i hne
        exact (h.finished id' ((List.mem_cons.mp hid').resolve_left hne)).2 s hs

theorem Inv.restart (h : Inv fl trunc x) :
    Inv fl trunc { x with manager := { SessionManager.new with sessions := x.restored fl trunc }, calls := [] } where
  logged := h.logged
  ahead := fun _ s hs => ⟨s, hs, rfl, rfl, rfl, (UInt16.add_zero _).symm, rfl, rfl, rfl⟩
  calling := fun _ hc => absurd hc List.not_mem_nil
  finished := fun id hid => ⟨(h.finished id hid).2, (h.finished id hid).2⟩
  inTime := h.inTime

/-- **What a step the log can tell keeps.** -/
theorem Inv.step (hfl : fl.Lawful) (h : Inv fl trunc x) {llm : Bool} : ∀ {o : SessionOp}, x.Tells o →
    Inv fl trunc (x.step fl trunc llm o)
  | .startSession _ _ _ _, ht => h.startSession hfl ht
  | .beginTurn _ _ _ _, _ => h.beginTurn
  | .endTurn k intent ids, _ => by
    rw [Running.step]
    cases hk : x.calls[k]? with
    | none => exact h
    | some c => exact h.recordTurn hfl hk
  | .failTurn k, ht => h.erase ht
  | .recordTurnNumber _ _ _, ht => by
    rw [Tells] at ht
    refine h.modify fun s n s' hs ha => ?_
    split
    · rename_i hactive
      refine ⟨ha.agentId, ha.userId, ha.turns, ?_, ha.memoryIds, ha.currentIntent, ha.active⟩
      rw [ht s hs hactive]
      exact ha.turnCount
    · exact ha
  | .addMemoryToSession _ _, ht => by
    rw [Tells] at ht
    exact h.modify fun s n s' hs _ => absurd (AList.lookup_isSome.mp (by rw [hs]; rfl)) ht
  | .closeSession id, ht => by
    rw [Running.step]
    split
    · exact h.closeSession hfl ht
    · exact h
  | .restart, _ => h.restart

theorem inv_start : Inv fl trunc start where
  logged := ⟨[], rfl⟩
  ahead := fun _ _ hs => by cases hs
  calling := fun _ hc => absurd hc List.not_mem_nil
  finished := fun _ hid => absurd hid List.not_mem_nil
  inTime := rfl

/-- **A manager that is restarted has every session as it was, and no turn is
recorded in a session that was closed**, in every run of steps the log can tell. -/
theorem durable_run (hfl : fl.Lawful) (llm : Bool) (os : List SessionOp)
    (h : Along (step fl trunc llm) Tells start os) : Durable fl trunc (run (step fl trunc llm) start os) := by
  have hinv := Run.run_inv (step fl trunc llm) (I := fun _ x => Inv fl trunc x) (fun _ x o hi ho => hi.step hfl ho)
    os [] start inv_start h
  exact hinv.durable

end Keep

/-! ### Runs of one session -/

def ann : Utf8Text := Utf8.lit "ann"

/-- The id the first session draws. -/
def firstId : UInt64 := 4198400

def started : SessionOp := .startSession ann ann [1735689600001] 7

def running (os : List SessionOp) : Running := run (step integers Empty.elim true) start os

/-- Two turns at once, a third, the closing and a restart. -/
def told : List SessionOp :=
  [started, .beginTurn firstId ann ann 8, .beginTurn firstId ann ann 9, .endTurn 1 ann [], .endTurn 0 ann [],
    .beginTurn firstId (Utf8.lit "I moved to Rome") ann 10, .recordTurnNumber firstId 3 11, .endTurn 0 ann [5],
    .closeSession firstId, .restart]

theorem durable_told : Durable integers Empty.elim (running told) :=
  durable_run lawful_integers true told (by decide)

/-- A memory that is added to a session, or a number of turns that is set, is not
there after a restart, and a turn is recorded in a session that was closed while
the model was asked. -/
theorem lost_and_late :
    ¬ Durable integers Empty.elim (running [started, .addMemoryToSession firstId 7]) ∧
      ¬ Durable integers Empty.elim (running [started, .recordTurnNumber firstId 3 8]) ∧
      ¬ Durable integers Empty.elim
        (running [started, .beginTurn firstId ann ann 8, .closeSession firstId, .endTurn 0 ann []]) := by
  have hreplay : replay Empty.elim integers ([WalRecord.start firstId ann ann 7].flatMap (line integers)) =
      WalRecord.applyTo ∅ (.start firstId ann ann 7) := replay_lines integers Empty.elim lawful_integers _
  have hstored : ∀ {s : Session}, (replay Empty.elim integers
      ([WalRecord.start firstId ann ann 7].flatMap (line integers))).lookup firstId = some s →
      s.memoryIds = [] ∧ s.turnCount = 0 := by
    intro s hs
    rw [hreplay, WalRecord.applyTo, AList.lookup_insert] at hs
    cases hs
    exact ⟨rfl, rfl⟩
  -- a session of which the log has its start only
  have hlost : ∀ {os : List SessionOp} {s : Session},
      (running os).wal = [WalRecord.start firstId ann ann 7].flatMap (line integers) → (running os).calls = [] →
      (running os).manager.sessions.lookup firstId = some s → Durable integers Empty.elim (running os) →
      s.memoryIds = [] ∧ s.turnCount = 0 := by
    intro os s hwal hcalls hs h
    obtain ⟨s', hs', hsame⟩ := h.restored firstId s hs (by rw [hcalls]; exact nofun)
    rw [restored, hwal] at hs'
    exact ⟨hsame.memoryIds.trans (hstored hs').1, hsame.turnCount.trans (hstored hs').2⟩
  have hwal : ∀ o, (∀ x : Running, (x.step integers Empty.elim true o).wal = x.wal) →
      (running [started, o]).wal = [WalRecord.start firstId ann ann 7].flatMap (line integers) := by
    intro o ho
    have hfirst : (SessionManager.new.startSession ann ann [1735689600001] 7).2 =
        some { sessionId := firstId, agentId := ann, userId := ann, startedAt := 7, lastTurnAt := 7 } := by decide
    show (step integers Empty.elim true (step integers Empty.elim true start started) o).wal = _
    rw [ho, started, wal_startSession]
    show [] ++ (SessionManager.new.startSession ann ann [1735689600001] 7).2.toList.flatMap _ = _
    rw [hfirst]
    simp
  have hlive : ∀ (os : List SessionOp) (v : List UInt64 × UInt16),
      ((running os).manager.sessions.lookup firstId).map (fun s => (s.memoryIds, s.turnCount)) = some v →
      ∃ s, (running os).manager.sessions.lookup firstId = some s ∧ s.memoryIds = v.1 ∧ s.turnCount = v.2 := by
    intro os v h
    obtain ⟨s, hs, rfl⟩ := Option.map_eq_some_iff.mp h
    exact ⟨s, hs, rfl, rfl⟩
  refine ⟨fun h => ?_, fun h => ?_, fun h => ?_⟩
  · obtain ⟨s, hs, hids, -⟩ := hlive [started, .addMemoryToSession firstId 7] ([7], 0) (by decide)
    have hnone := (hlost (hwal _ fun _ => rfl) rfl hs h).1
    rw [hids] at hnone
    cases hnone
  · obtain ⟨s, hs, -, hcount⟩ := hlive [started, .recordTurnNumber firstId 3 8] ([], 3) (by decide)
    have hnone := (hlost (hwal _ fun _ => rfl) rfl hs h).2
    rw [hcount] at hnone
    cases hnone
  · have hlate : (running [started, .beginTurn firstId ann ann 8, .closeSession firstId,
        .endTurn 0 ann []]).late ≠ [] := by
      decide
    exact hlate h.inTime

end Running

end Sessions
end Amind
