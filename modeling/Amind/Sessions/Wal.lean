/-
# The log of the sessions

Each event of a session is a line of `session_wal.jsonl`: an object, a tab, the
checksum of the object in decimal digits. A replay takes the lines one by one. A
line whose checksum is wrong or whose object is not read is passed over, and a
line without a checksum is read as a whole, as old logs have none.

A line written is read back (`readLine_checked`), and no tab and no end of line
stands in an object that is dumped, so the lines of a log are those written
(`entries_append`).
-/
import Mathlib.Data.List.AList
import Amind.Core.Crc32
import Amind.Lib.Json

namespace Amind
namespace Sessions

open Amind.Core Json
open Keyed (ofPairs)

abbrev Bytes := List UInt8

/-- A turn of the conversation. -/
structure TurnRecord where
  turnNumber : UInt32
  userInput : Utf8Text
  agentResponse : Utf8Text
  detectedIntent : Utf8Text
  extractedMemoryIds : List UInt64
  timestamp : Int64
  deriving DecidableEq

structure Session where
  sessionId : UInt64
  agentId : Utf8Text
  userId : Utf8Text
  startedAt : UInt32
  lastTurnAt : UInt32
  turnCount : UInt16 := 0
  active : Bool := true
  memoryIds : List UInt64 := []
  turns : List TurnRecord := []
  currentIntent : Utf8Text := ⟨[], Utf8.valid_nil⟩
  deriving DecidableEq

/-- An event as it is logged. A text that is not well formed is never written. -/
inductive WalRecord
  | start (sessionId : UInt64) (agentId userId : Utf8Text) (startedAt : UInt32)
  | turn (sessionId : UInt64) (turn : TurnRecord)
  | close (sessionId : UInt64)
  deriving DecidableEq

namespace Field

def op : Utf8Text := ⟨Utf8.bytes "op", by decide⟩
def sessionId : Utf8Text := ⟨Utf8.bytes "session_id", by decide⟩
def agentId : Utf8Text := ⟨Utf8.bytes "agent_id", by decide⟩
def userId : Utf8Text := ⟨Utf8.bytes "user_id", by decide⟩
def startedAt : Utf8Text := ⟨Utf8.bytes "started_at", by decide⟩
def turnNumber : Utf8Text := ⟨Utf8.bytes "turn_number", by decide⟩
def userInput : Utf8Text := ⟨Utf8.bytes "user_input", by decide⟩
def agentResponse : Utf8Text := ⟨Utf8.bytes "agent_response", by decide⟩
def detectedIntent : Utf8Text := ⟨Utf8.bytes "detected_intent", by decide⟩
def extractedMemoryIds : Utf8Text := ⟨Utf8.bytes "extracted_memory_ids", by decide⟩
def timestamp : Utf8Text := ⟨Utf8.bytes "timestamp", by decide⟩
def namespaceName : Utf8Text := ⟨Utf8.bytes "namespace", by decide⟩

end Field

namespace Word

def empty : Utf8Text := ⟨[], Utf8.valid_nil⟩
def start : Utf8Text := ⟨Utf8.bytes "start", by decide⟩
def turn : Utf8Text := ⟨Utf8.bytes "turn", by decide⟩
def close : Utf8Text := ⟨Utf8.bytes "close", by decide⟩
def anonymous : Utf8Text := ⟨Utf8.bytes "anonymous", by decide⟩
def default : Utf8Text := ⟨Utf8.bytes "default", by decide⟩

end Word

variable {D : Type}

/-! ### Writing -/

namespace WalRecord

/-- The members of the object, as they are set. -/
def members : WalRecord → List (Utf8Text × Json D)
  | .start sessionId agentId userId startedAt =>
    [(Field.op, .str Word.start), (Field.sessionId, .int sessionId.toNat), (Field.agentId, .str agentId),
      (Field.userId, .str userId), (Field.startedAt, .int startedAt.toNat)]
  | .turn sessionId t =>
    [(Field.op, .str Word.turn), (Field.sessionId, .int sessionId.toNat), (Field.turnNumber, .int t.turnNumber.toNat),
      (Field.userInput, .str t.userInput), (Field.agentResponse, .str t.agentResponse),
      (Field.detectedIntent, .str t.detectedIntent),
      (Field.extractedMemoryIds, .arr (t.extractedMemoryIds.map fun id => .int id.toNat)),
      (Field.timestamp, .int t.timestamp.toInt)]
  | .close sessionId => [(Field.op, .str Word.close), (Field.sessionId, .int sessionId.toNat)]

def toJson (r : WalRecord) : Json D := .obj (ofPairs r.members)

end WalRecord

section Lines

variable (fl : Library D)

/-- The line of an object, without the end of the line. -/
def checked (text : Bytes) : Bytes := text ++ 0x09 :: dumpNat (crc32 text).toNat

/-- What is written for an event. -/
def line (r : WalRecord) : Bytes := checked (fl.dump r.toJson) ++ [0x0A]

/-! ### Reading -/

/-- What stands before the last tab, and behind it. -/
def lastTab : Bytes → Option (Bytes × Bytes)
  | [] => none
  | b :: s =>
    match lastTab s with
    | some (before, behind) => some (b :: before, behind)
    | none => if b = 0x09 then some ([], s) else none

def isSpace (b : UInt8) : Bool := b = 0x20 ∨ 0x09 ≤ b ∧ b ≤ 0x0D

/-- A number of 64 bits at the start of a text: blanks, a sign, digits. -/
def stoul (s : Bytes) : Option ℕ :=
  let body := s.dropWhile isSpace
  let digits := (if body.head? = some 0x2B ∨ body.head? = some 0x2D then body.tail else body).takeWhile isDigit
  if digits = [] ∨ 2 ^ 64 ≤ readNat digits then none
  else some (if body.head? = some 0x2D then (2 ^ 64 - readNat digits) % 2 ^ 64 else readNat digits)

/-- The object of a line: what is before the last tab if the checksum behind it is
right, nothing if it is wrong, and the whole line if there is none. -/
def jsonPart (s : Bytes) : Option Bytes :=
  match lastTab s with
  | none => some s
  | some (before, behind) =>
    if before = [] then some s
    else
      match stoul behind with
      | none => some s
      | some n => if UInt32.ofNat n = crc32 before then some before else none

/-- What a line is read as, if it is not passed over. -/
def readLine (s : Bytes) : Option (Json D) := if s = [] then none else (jsonPart s).bind (fl.parse)

/-- The objects that a replay takes from the log. -/
def entries (wal : Bytes) : List (Json D) := (wal.splitOn 0x0A).filterMap (readLine fl)

end Lines

/-! ### Replaying -/

section Replay

variable (trunc : D → ℤ)

def toInt : Json D → Option ℤ
  | .int n => some n
  | .float x => some (trunc x)
  | _ => none

def toIntOrBool : Json D → Option ℤ
  | .bool b => some (if b then 1 else 0)
  | j => toInt trunc j

def toText : Json D → Option Utf8Text
  | .str s => some s
  | _ => none

def toIds : Json D → Option (List UInt64)
  | .arr js => js.mapM fun j => (toInt trunc j).map UInt64.ofInt
  | _ => none

/-- A member of an object, or the default if there is none. A member of another
type, or a value that is no object, is an error. -/
def valueOr {α : Type} (j : Json D) (k : Utf8Text) (default : α) (get : Json D → Option α) : Option α :=
  match j with
  | .obj ms =>
    match ms.lookup k with
    | some v => get v
    | none => some default
  | _ => none

/-- The session an event is about. -/
def sessionOf (j : Json D) : Option UInt64 := (j.find Field.sessionId).bind fun v => (toInt trunc v).map UInt64.ofInt

def readStart (j : Json D) : Option Session := do
  let sessionId ← sessionOf trunc j
  let namespaceName ← valueOr j Field.namespaceName Word.default toText
  let agentId ← valueOr j Field.agentId namespaceName toText
  let userId ← valueOr j Field.userId Word.anonymous toText
  let startedAt ← valueOr j Field.startedAt 0 fun v => (toIntOrBool trunc v).map UInt32.ofInt
  pure { sessionId, agentId, userId, startedAt, lastTurnAt := startedAt }

def readTurn (j : Json D) : Option TurnRecord := do
  let turnNumber ← valueOr j Field.turnNumber 0 fun v => (toIntOrBool trunc v).map UInt32.ofInt
  let userInput ← valueOr j Field.userInput Word.empty toText
  let agentResponse ← valueOr j Field.agentResponse Word.empty toText
  let detectedIntent ← valueOr j Field.detectedIntent Word.empty toText
  let timestamp ← valueOr j Field.timestamp 0 fun v => (toInt trunc v).map Int64.ofInt
  let extractedMemoryIds ← valueOr j Field.extractedMemoryIds [] (toIds trunc)
  pure { turnNumber, userInput, agentResponse, detectedIntent, extractedMemoryIds, timestamp }

/-- The session after a turn. -/
def Session.addTurn (s : Session) (t : TurnRecord) : Session :=
  { s with
    memoryIds := s.memoryIds ++ t.extractedMemoryIds
    turnCount := s.turnCount + 1
    lastTurnAt := UInt32.ofInt t.timestamp.toInt
    currentIntent := if t.detectedIntent = Word.empty then s.currentIntent else t.detectedIntent
    turns := s.turns ++ [t] }

abbrev SessionMap := AList fun _ : UInt64 => Session

/-- The sessions after an entry, or an error. -/
def applyEntry (sessions : SessionMap) (j : Json D) : Option SessionMap :=
  (valueOr j Field.op Word.empty toText).bind fun op =>
    if op = Word.start then (readStart trunc j).map fun s => sessions.insert s.sessionId s
    else if op = Word.turn then
      (sessionOf trunc j).bind fun sid =>
        match sessions.lookup sid with
        | none => some sessions
        | some s => (readTurn trunc j).map fun t => sessions.insert sid (s.addTurn t)
    else if op = Word.close then
      (sessionOf trunc j).map fun sid =>
        match sessions.lookup sid with
        | none => sessions
        | some s => sessions.insert sid { s with active := false }
    else some sessions

/-- The sessions of the log; an entry with an error is passed over. -/
def replay (fl : Library D) (wal : Bytes) : SessionMap :=
  (entries fl wal).foldl (fun sessions j => (applyEntry trunc sessions j).getD sessions) ∅

end Replay

/-! ### Lines come back -/

section RoundTrip

theorem lastTab_append : ∀ (a : Bytes) {b : Bytes}, 0x09 ∉ b → lastTab (a ++ 0x09 :: b) = some (a, b)
  | [], b, hb => by
    have hnone : lastTab b = none := by
      induction b with
      | nil => rfl
      | cons c b ih =>
        rw [List.mem_cons, not_or] at hb
        rw [lastTab, ih hb.2, if_neg fun h => hb.1 h.symm]
    rw [List.nil_append, lastTab, hnone, if_pos rfl]
  | c :: a, b, hb => by rw [List.cons_append, lastTab, lastTab_append a hb]

theorem lastTab_of_not_mem : ∀ {s : Bytes}, 0x09 ∉ s → lastTab s = none
  | [], _ => rfl
  | c :: s, h => by
    rw [List.mem_cons, not_or] at h
    rw [lastTab, lastTab_of_not_mem h.2, if_neg fun hc => h.1 hc.symm]

theorem digit_range {b : UInt8} (h : isDigit b = true) : 48 ≤ b ∧ b ≤ 57 := of_decide_eq_true h

/-- Digits and nothing else. -/
theorem stoul_digits {s : Bytes} (hne : s ≠ []) (hd : ∀ b ∈ s, isDigit b = true) (hlt : readNat s < 2 ^ 64) :
    stoul s = some (readNat s) := by
  obtain ⟨c, s, rfl⟩ := List.exists_cons_of_ne_nil hne
  have hc := digit_range (hd c List.mem_cons_self)
  have hspace : isSpace c = false := by
    refine decide_eq_false fun h => ?_
    rcases h with rfl | ⟨-, h⟩
    · exact absurd hc.1 (by decide)
    · exact absurd (le_trans hc.1 h) (by decide)
  have hplus : c ≠ 0x2B := by
    rintro rfl
    exact absurd hc.1 (by decide)
  have hminus : c ≠ 0x2D := by
    rintro rfl
    exact absurd hc.1 (by decide)
  have hall : (c :: s).takeWhile isDigit = c :: s := List.takeWhile_eq_self_iff.mpr hd
  have hsign : ¬ (some c = some 0x2B ∨ some c = some 0x2D) := by simp [hplus, hminus]
  have hfits : ¬ (c :: s = [] ∨ 2 ^ 64 ≤ readNat (c :: s)) := fun h => h.elim hne (not_le.mpr hlt)
  unfold stoul
  dsimp only
  rw [List.dropWhile_cons_of_neg (by simp [hspace]), List.head?_cons, if_neg hsign, hall, if_neg hfits,
    if_neg fun h => hsign (Or.inr h)]

theorem stoul_dumpNat {n : ℕ} (h : n < 2 ^ 64) : stoul (dumpNat n) = some n := by
  have hs := stoul_digits (dumpNat_ne_nil n) (dumpNat_digits n) (by rw [readNat_dumpNat]; exact h)
  rwa [readNat_dumpNat] at hs

theorem not_mem_dumpNat {c : UInt8} (hc : c < 48) (n : ℕ) : c ∉ dumpNat n := fun h =>
  absurd (digit_range (dumpNat_digits n c h)).1 (not_le.mpr hc)

/-- The text before a checksum is read if the checksum is its own. -/
theorem jsonPart_crc {text : Bytes} (hne : text ≠ []) (crc : UInt32) :
    jsonPart (text ++ 0x09 :: dumpNat crc.toNat) = if crc = crc32 text then some text else none := by
  have hlt : crc.toNat < 2 ^ 64 := lt_trans crc.toNat_lt (by decide)
  unfold jsonPart
  rw [lastTab_append text (not_mem_dumpNat (by decide) _)]
  dsimp only
  rw [if_neg hne, stoul_dumpNat hlt]
  dsimp only
  rw [UInt32.ofNat_toNat]

variable {fl : Library D}

theorem WalRecord.wellFormed_toJson (r : WalRecord) : WellFormed (r.toJson : Json D) := by
  have hnat64 : ∀ n : UInt64, WellFormed (.int n.toNat : Json D) := fun n =>
    .int ⟨by omega, by have := n.toNat_lt; omega⟩
  have hnat32 : ∀ n : UInt32, WellFormed (.int n.toNat : Json D) := fun n =>
    .int ⟨by omega, by have := n.toNat_lt; omega⟩
  have hint : ∀ n : Int64, WellFormed (.int n.toInt : Json D) := fun n =>
    .int ⟨n.le_toInt, lt_trans n.toInt_lt (by decide)⟩
  have hids : ∀ ids : List UInt64, WellFormed (.arr (ids.map fun id => .int id.toNat) : Json D) := fun ids =>
    .arr fun j hj => by
      obtain ⟨id, -, rfl⟩ := List.mem_map.mp hj
      exact hnat64 id
  refine wellFormed_ofPairs ?_
  cases r <;> simp only [members, List.forall_mem_cons, List.not_mem_nil, false_imp_iff, implies_true, and_true,
    WellFormed.str, hnat64, hnat32, hint, hids]

/-- What is dumped is not empty and has no tab and no end of a line. -/
theorem dump_toJson (hfl : fl.Lawful) (r : WalRecord) :
    fl.dump r.toJson ≠ [] ∧ 0x09 ∉ fl.dump r.toJson ∧ 0x0A ∉ fl.dump r.toJson := by
  refine ⟨List.length_pos_iff.mp (hfl.length_dump_pos _), fun h => ?_, fun h => ?_⟩
  · exact absurd (hfl.ge_of_mem_dump _ h) (by decide)
  · exact absurd (hfl.ge_of_mem_dump _ h) (by decide)

theorem not_mem_checked (hfl : fl.Lawful) (r : WalRecord) : 0x0A ∉ checked (fl.dump r.toJson) := by
  intro h
  rcases List.mem_append.mp h with h | h
  · exact (dump_toJson hfl r).2.2 h
  · rcases List.mem_cons.mp h with h | h
    · cases h
    · exact not_mem_dumpNat (by decide) _ h

/-- A line is read back. -/
theorem readLine_checked (hfl : fl.Lawful) (r : WalRecord) :
    readLine fl (checked (fl.dump r.toJson)) = some r.toJson := by
  have hne : checked (fl.dump r.toJson) ≠ [] := by simp [checked]
  have hpart := jsonPart_crc (dump_toJson hfl r).1 (crc32 (fl.dump (r.toJson : Json D)))
  rw [if_pos rfl] at hpart
  rw [readLine, if_neg hne, checked, hpart, Option.bind_some, hfl.parse_dump r.wellFormed_toJson]

theorem entries_nil : entries fl [] = [] := rfl

/-- The first line of a log. -/
theorem entries_cons {s : Bytes} (hs : 0x0A ∉ s) (rest : Bytes) :
    entries fl (s ++ 0x0A :: rest) = (readLine fl s).toList ++ entries fl rest := by
  unfold entries
  rw [List.splitOn_append_cons_self, List.splitOn_eq_singleton hs, List.singleton_append]
  cases hr : readLine fl s <;> simp [hr]

/-- The last line of a log, without its end. -/
theorem entries_last {s : Bytes} (hs : 0x0A ∉ s) : entries fl s = (readLine fl s).toList := by
  unfold entries
  rw [List.splitOn_eq_singleton hs]
  cases hr : readLine fl s <;> simp [hr]

/-- The events in front are taken first. -/
theorem entries_append (hfl : fl.Lawful) (rest : Bytes) : ∀ rs : List WalRecord,
    entries fl (rs.flatMap (line fl) ++ rest) = rs.map WalRecord.toJson ++ entries fl rest
  | [] => rfl
  | r :: rs => by
    have hbytes : (r :: rs).flatMap (line fl) ++ rest =
        checked (fl.dump r.toJson) ++ 0x0A :: (rs.flatMap (line fl) ++ rest) := by
      simp [line]
    rw [hbytes, entries_cons (not_mem_checked hfl r), readLine_checked hfl, entries_append hfl rest rs]
    rfl

/-! ### A line that is cut short -/

theorem le_readNat_append (s t : Bytes) : readNat s ≤ readNat (s ++ t) := by
  have hgrow : ∀ (t : Bytes) (n : ℕ), n ≤ t.foldl (fun n b => 10 * n + (b.toNat - 48)) n := by
    intro t
    induction t with
    | nil => exact fun n => le_rfl
    | cons b t ih =>
      intro n
      have hstep : n ≤ 10 * n + (b.toNat - 48) := by omega
      exact le_trans hstep (ih _)
  unfold readNat
  rw [List.foldl_append]
  exact hgrow t _

/-- A line cut behind its tab: the checksum is cut to `m` digits. -/
theorem readLine_cut_crc (hfl : fl.Lawful) (r : WalRecord) (m : ℕ) :
    readLine fl (fl.dump r.toJson ++ 0x09 :: (dumpNat (crc32 (fl.dump (r.toJson : Json D))).toNat).take m) = none ∨
      readLine fl (fl.dump r.toJson ++ 0x09 :: (dumpNat (crc32 (fl.dump (r.toJson : Json D))).toNat).take m) =
        some r.toJson := by
  obtain ⟨hne, -, -⟩ := dump_toJson hfl r
  have hparse := hfl.parse_dump (r.wellFormed_toJson (D := D))
  have htab : 0x09 ∉ (dumpNat (crc32 (fl.dump (r.toJson : Json D))).toNat).take m :=
    fun h => not_mem_dumpNat (by decide) _ (List.mem_of_mem_take h)
  rw [readLine, if_neg (by simp), jsonPart, lastTab_append _ htab]
  dsimp only
  rw [if_neg hne]
  by_cases hm : (dumpNat (crc32 (fl.dump (r.toJson : Json D))).toNat).take m = []
  · rw [hm]
    exact Or.inr (hfl.parse_dump_blank r.wellFormed_toJson (by decide))
  · have hlt : readNat ((dumpNat (crc32 (fl.dump (r.toJson : Json D))).toNat).take m) < 2 ^ 64 := by
      have hle := le_readNat_append ((dumpNat (crc32 (fl.dump (r.toJson : Json D))).toNat).take m)
        ((dumpNat (crc32 (fl.dump (r.toJson : Json D))).toNat).drop m)
      rw [List.take_append_drop, readNat_dumpNat] at hle
      exact lt_of_le_of_lt hle (lt_trans (UInt32.toNat_lt _) (by decide))
    rw [stoul_digits hm (fun b hb => dumpNat_digits _ b (List.mem_of_mem_take hb)) hlt]
    dsimp only
    split
    · exact Or.inr hparse
    · exact Or.inl rfl

/-- A line that is cut is passed over, or its object is whole. -/
theorem readLine_take (hfl : fl.Lawful) (r : WalRecord) {k : ℕ} (hk : k < (line fl r).length) :
    0x0A ∉ (line fl r).take k ∧
      (readLine fl ((line fl r).take k) = none ∨ readLine fl ((line fl r).take k) = some r.toJson) := by
  obtain ⟨hne, htab, -⟩ := dump_toJson hfl r
  have hcut : (line fl r).take k = (checked (fl.dump r.toJson)).take k := by
    rw [line, List.length_append, List.length_singleton] at hk
    rw [line, List.take_append_of_le_length (by omega)]
  rw [hcut]
  refine ⟨fun h => not_mem_checked hfl r (List.mem_of_mem_take h), ?_⟩
  by_cases hin : k ≤ (fl.dump r.toJson).length
  · -- the cut is in the object, or right behind it
    have htake : (checked (fl.dump r.toJson)).take k = (fl.dump r.toJson).take k := by
      rw [checked, List.take_append_of_le_length hin]
    rw [htake]
    by_cases hnil : (fl.dump r.toJson).take k = []
    · exact Or.inl (by rw [readLine, if_pos hnil])
    · rw [readLine, if_neg hnil, jsonPart, lastTab_of_not_mem fun h => htab (List.mem_of_mem_take h)]
      by_cases hwhole : k = (fl.dump r.toJson).length
      · refine Or.inr ?_
        rw [hwhole, List.take_length]
        exact hfl.parse_dump r.wellFormed_toJson
      · exact Or.inl (hfl.parse_take_dump r.wellFormed_toJson (by rw [WalRecord.toJson] at hin hwhole; omega))
  · obtain ⟨m, rfl⟩ : ∃ m, k = (fl.dump r.toJson).length + (m + 1) := ⟨k - (fl.dump r.toJson).length - 1, by omega⟩
    have htake : (checked (fl.dump r.toJson)).take ((fl.dump r.toJson).length + (m + 1)) =
        fl.dump r.toJson ++ 0x09 :: (dumpNat (crc32 (fl.dump (r.toJson : Json D))).toNat).take m := by
      rw [checked, List.take_length_add_append, List.take_succ_cons]
    rw [htake]
    exact readLine_cut_crc hfl r m

/-- The line that a cut one and the next event become. -/
theorem readLine_merged {torn text : Bytes} (ht : torn ≠ []) (crc : UInt32) :
    readLine fl (torn ++ text ++ 0x09 :: dumpNat crc.toNat) =
      if crc = crc32 (torn ++ text) then fl.parse (torn ++ text) else none := by
  have hne : torn ++ text ≠ [] := fun h => ht (List.append_eq_nil_iff.mp h).1
  rw [readLine, if_neg (by simp), jsonPart_crc hne]
  split <;> rfl

end RoundTrip

end Sessions
end Amind
