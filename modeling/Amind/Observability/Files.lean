/-
# The files of the event log

Each event is a line of the file of the log. A file that is large enough is renamed when
the next event comes, those before it with it, and the oldest one goes. The log that is
opened again reads the file that is written to, and none of those before it.

A line says all of its event (`readLine_eventLine`). So in every run of appends and
restarts the files hold the last events that were written, each one once and in order,
and all of them as long as no file had to go (`rotated_run`); and the ring is what it was
before a restart if and only if it had no more events than the file that is written to
(`restart_iff`).
-/
import Amind.Core.RawRoundTrip
import Amind.Lib.Rotation
import Amind.Memory.Backup
import Amind.Observability.Serialisation

namespace Amind
namespace Observability

open Amind.Core
open Amind.Memory (toStr member getText importLines)
open Rotation (Parts Keeps)

/-! ### A line says all of its event -/

section RoundTrip

theorem fromUTF8_bytes (s : String) : String.fromUTF8? ⟨(Utf8.bytes s).toArray⟩ = some s := by
  have harr : (⟨(Utf8.bytes s).toArray⟩ : ByteArray) = s.toByteArray := by simp [Utf8.bytes]
  have hvalid : s.toByteArray.IsValidUTF8 := s.isValidUTF8
  rw [harr, String.fromUTF8?, dif_pos hvalid]
  rfl

theorem val_lit (s : String) : (Utf8.lit s).val = Utf8.bytes s := by
  unfold Utf8.lit
  rw [dif_pos (Utf8.valid_bytes s)]

/-- The attributes are a map: each key once, in their order. -/
def Mapped (attrs : List (String × Text)) : Prop := (attrs.map fun a => Utf8.lit a.1).Pairwise (· < ·)

instance (attrs : List (String × Text)) : Decidable (Mapped attrs) := inferInstanceAs (Decidable (List.Pairwise _ _))

theorem kindFromString_toString (k : EventKind) : kindFromString (kindToString k).val = k := by
  cases k <;> decide

theorem statusFromString_toString (s : EventStatus) : statusFromString (statusToString s).val = s := by
  cases s <;> decide

variable {F D : Type} {nf : Numbers F D}

/-- The members of an event that is written. -/
def written (e : LoggedEvent) (agentId summary : Utf8Text) (attrs : List (Utf8Text × Json D)) :
    List (Utf8Text × Json D) :=
  [(Utf8.lit "event_id", .int e.eventId.toNat),
    (Utf8.lit "parent_event_id", .int e.parentEventId.toNat),
    (Utf8.lit "trace_id", .int e.traceId.toNat),
    (Utf8.lit "memory_id", .int e.memoryId.toNat),
    (Utf8.lit "ts", .int e.timestampMs.toNat),
    (Utf8.lit "dur", .int e.durationMs.toNat),
    (Utf8.lit "ns", .str agentId),
    (Utf8.lit "kind", .str (kindToString e.kind)),
    (Utf8.lit "status", .str (statusToString e.status)),
    (Utf8.lit "summary", .str summary)] ++
  if e.attrs = [] then [] else [(Utf8.lit "attrs", .obj (Keyed.ofPairs attrs))]

theorem attrs_eq_some : ∀ {attrs : List (String × Text)} {ms : List (Utf8Text × Json D)},
    attrs.mapM attrMember = some ms →
      ms.map Prod.fst = attrs.map (fun a => Utf8.lit a.1) ∧ (∀ m ∈ ms, Json.WellFormed m.2) ∧
      ms.mapM (fun m => (getText m.2).map fun v => ((String.fromUTF8? ⟨m.1.val.toArray⟩).getD "", v)) = some attrs
  | [], ms, h => by
    obtain rfl : [] = ms := Option.some.inj h
    exact ⟨rfl, fun _ hm => absurd hm List.not_mem_nil, rfl⟩
  | (k, v) :: attrs, ms, h => by
    rw [List.mapM_cons] at h
    obtain ⟨m, hm, h⟩ := Option.bind_eq_some_iff.mp h
    obtain ⟨ms', hms, h⟩ := Option.bind_eq_some_iff.mp h
    obtain rfl : m :: ms' = ms := Option.some.inj h
    obtain ⟨w, hw, rfl⟩ := Option.map_eq_some_iff.mp hm
    obtain ⟨hv, rfl⟩ := Memory.toStr_eq_some hw
    obtain ⟨hkeys, hwell, hread⟩ := attrs_eq_some hms
    refine ⟨?_, List.forall_mem_cons.mpr ⟨.str _, hwell⟩, ?_⟩
    · rw [List.map_cons, List.map_cons, hkeys]
    · rw [List.mapM_cons, hread, val_lit, fromUTF8_bytes]
      rfl

theorem nodup_written (e : LoggedEvent) (agentId summary : Utf8Text) (attrs : List (Utf8Text × Json D)) :
    ((written e agentId summary attrs).map Prod.fst).Nodup := by
  unfold written
  split
  · show ([Utf8.lit "event_id", Utf8.lit "parent_event_id", Utf8.lit "trace_id", Utf8.lit "memory_id", Utf8.lit "ts",
      Utf8.lit "dur", Utf8.lit "ns", Utf8.lit "kind", Utf8.lit "status", Utf8.lit "summary"] : List Utf8Text).Nodup
    decide
  · show ([Utf8.lit "event_id", Utf8.lit "parent_event_id", Utf8.lit "trace_id", Utf8.lit "memory_id", Utf8.lit "ts",
      Utf8.lit "dur", Utf8.lit "ns", Utf8.lit "kind", Utf8.lit "status", Utf8.lit "summary", Utf8.lit "attrs"] :
      List Utf8Text).Nodup
    decide

/-- The attributes are read back. -/
theorem attrsOf_written {e : LoggedEvent} (he : Mapped e.attrs) {attrs : List (Utf8Text × Json D)}
    (h : e.attrs.mapM attrMember = some attrs) (agentId summary : Utf8Text) :
    attrsOf (.obj (Keyed.ofPairs (written e agentId summary attrs))) = some e.attrs := by
  obtain ⟨hkeys, -, hread⟩ := attrs_eq_some h
  unfold attrsOf Json.find
  dsimp only
  by_cases hnil : e.attrs = []
  · have habsent : ∀ m ∈ written e agentId summary attrs, m.1 ≠ Utf8.lit "attrs" := by
      unfold written
      rw [if_pos hnil, List.append_nil]
      simp only [List.mem_cons, List.not_mem_nil, or_false, forall_eq_or_imp, forall_eq]
      decide
    rw [Keyed.lookup_ofPairs_none habsent, hnil]
  · have hin : (Utf8.lit "attrs", .obj (Keyed.ofPairs attrs)) ∈ written e agentId summary attrs := by
      unfold written
      rw [if_neg hnil]
      exact List.mem_append_right _ (List.mem_singleton_self _)
    have hsorted : Keyed.Ascending attrs := by
      have hpairs : (attrs.map Prod.fst).Pairwise (· < ·) := hkeys ▸ he
      exact List.pairwise_map.mp hpairs
    rw [Keyed.lookup_ofPairs (nodup_written e agentId summary attrs) hin, Keyed.ofPairs_of_ascending hsorted]
    exact hread

theorem wellFormed_written (e : LoggedEvent) (agentId summary : Utf8Text) {attrs : List (Utf8Text × Json D)}
    (h : ∀ m ∈ attrs, Json.WellFormed m.2) :
    Json.WellFormed (.obj (Keyed.ofPairs (written e agentId summary attrs))) := by
  have hint : ∀ n : UInt64, Json.WellFormed (D := D) (.int n.toNat) := fun n => wellFormed_nat n.toNat_lt
  have hdur : Json.WellFormed (D := D) (.int e.durationMs.toNat) :=
    wellFormed_nat (e.durationMs.toNat_lt.trans (by decide))
  refine Json.wellFormed_ofPairs fun m hm => ?_
  unfold written at hm
  rcases List.mem_append.mp hm with hm | hm
  · simp only [List.mem_cons, List.not_mem_nil, or_false] at hm
    rcases hm with rfl | rfl | rfl | rfl | rfl | rfl | rfl | rfl | rfl | rfl <;>
      first | exact hint _ | exact hdur | exact .str _
  · split at hm
    · cases hm
    · rw [List.mem_singleton.mp hm]
      exact Json.wellFormed_ofPairs h

theorem jsonToEvent_written {e : LoggedEvent} (he : Mapped e.attrs) {attrs : List (Utf8Text × Json D)}
    (h : e.attrs.mapM attrMember = some attrs) (hagent : Utf8.valid e.agentId = true)
    (hsummary : Utf8.valid e.summary = true) :
    jsonToEvent nf (.obj (Keyed.ofPairs (written e ⟨_, hagent⟩ ⟨_, hsummary⟩ attrs))) = some e := by
  have hmember : ∀ {α : Type} (i : ℕ) {key : String} {v : Json D} (get : Json D → Option α) (otherwise : α),
      (written e ⟨_, hagent⟩ ⟨_, hsummary⟩ attrs)[i]? = some (Utf8.lit key, v) →
      Memory.member (.obj (Keyed.ofPairs (written e ⟨_, hagent⟩ ⟨_, hsummary⟩ attrs))) key get otherwise = get v :=
    fun i key v get otherwise hi =>
      Memory.member_ofPairs (nodup_written e _ _ attrs) (List.mem_of_getElem? hi) get otherwise
  unfold jsonToEvent
  rw [hmember 0 _ _ rfl, hmember 1 _ _ rfl, hmember 2 _ _ rfl, hmember 3 _ _ rfl, hmember 4 _ _ rfl, hmember 5 _ _ rfl,
    hmember 6 _ _ rfl, hmember 7 _ _ rfl, hmember 8 _ _ rfl, hmember 9 _ _ rfl, attrsOf_written he h]
  simp [getText, toInt, toIntOrBool, kindFromString_toString, statusFromString_toString, Json.ofInt_toNat32,
    Json.ofInt_toNat64]

/-- **A line is read as the event it was written for**. -/
theorem readLine_eventLine (hfl : nf.text.Lawful) {e : LoggedEvent} (he : Mapped e.attrs) {line : Text}
    (h : eventLine nf.text e = some line) :
    ∃ text, line = text ++ [0x0A] ∧ text ≠ [] ∧ 0x0A ∉ text ∧
      (nf.text.parse text).bind (jsonToEvent nf) = some e := by
  obtain ⟨j, hj, rfl⟩ := Option.map_eq_some_iff.mp h
  refine ⟨nf.text.dump j, rfl, List.ne_nil_of_length_pos (hfl.length_dump_pos j), fun hm => ?_, ?_⟩
  · exact absurd (hfl.ge_of_mem_dump j hm) (by decide)
  · obtain ⟨agentId, hagent, hj⟩ := Option.bind_eq_some_iff.mp hj
    obtain ⟨summary, hsummary, hj⟩ := Option.bind_eq_some_iff.mp hj
    obtain ⟨attrs, hattrs, hj⟩ := Option.bind_eq_some_iff.mp hj
    obtain ⟨ha, rfl⟩ := Memory.toStr_eq_some hagent
    obtain ⟨hs, rfl⟩ := Memory.toStr_eq_some hsummary
    obtain rfl : .obj (Keyed.ofPairs (written e ⟨_, ha⟩ ⟨_, hs⟩ attrs)) = j := Option.some.inj hj
    rw [hfl.parse_dump (wellFormed_written e _ _ (attrs_eq_some hattrs).2.1)]
    exact jsonToEvent_written he hattrs ha hs

end RoundTrip

/-! ### The files -/

/-- The fields of the configuration, but for whether each line is flushed: it is. -/
structure LogConfig where
  ringCapacity : ℕ := 2000
  maxFileBytes : ℕ := 16 * 1024 * 1024
  maxRotatedFiles : ℕ := 5

/-- How many files are kept: one, when none are wanted. -/
def LogConfig.kept (c : LogConfig) : ℕ := max 1 c.maxRotatedFiles

/-- `events.log`, and the files with a number behind it. -/
structure LogFiles where
  current : Option Text := none
  rotated : ℕ → Option Text := fun _ => none

namespace LogFiles

/-- A file gets another number, if it exists. -/
def rename (old new : ℕ) (files : ℕ → Option Text) : ℕ → Option Text :=
  match files old with
  | some file => Function.update (Function.update files new (some file)) old none
  | none => files

/-- Each file takes the name of the next one, the highest first. -/
def shift : ℕ → (ℕ → Option Text) → ℕ → Option Text
  | i + 2, files => shift (i + 1) (rename (i + 1) (i + 2) files)
  | _, files => files

/-- The oldest file goes, each other one takes the next name, and a new one is begun. -/
def rotate (maxRotatedFiles : ℕ) (f : LogFiles) : LogFiles :=
  let shifted := shift maxRotatedFiles (Function.update f.rotated maxRotatedFiles none)
  match f.current with
  | some file => ⟨some [], Function.update shifted 1 (some file)⟩
  | none => ⟨some [], shifted⟩

end LogFiles

/-- The log, its files, and how large it holds the one to be that it writes to. -/
structure FileLog where
  files : LogFiles := {}
  currentFileSize : ℕ := 0
  log : EventLog := {}

/-- An event with an id and a time of the log's own, if it has none. -/
def LoggedEvent.numbered (e : LoggedEvent) (nextId nowMs : UInt64) : LoggedEvent :=
  let ev := if e.eventId = 0 then { e with eventId := nextId } else e
  if ev.timestampMs = 0 then { ev with timestampMs := nowMs } else ev

namespace FileLog

section Steps

variable {F D : Type} (nf : Numbers F D) (c : LogConfig)

def rotateIfNeeded (l : FileLog) : FileLog :=
  if l.currentFileSize < c.maxFileBytes then l
  else { l with files := l.files.rotate c.maxRotatedFiles, currentFileSize := 0 }

/-- Write an event, and keep it. If its line cannot be made, the exception comes after the
files were rotated. -/
def append (l : FileLog) (e : LoggedEvent) (nextId nowMs : UInt64) : FileLog :=
  let l := l.rotateIfNeeded c
  match eventLine nf.text (e.numbered nextId nowMs) with
  | some line =>
    { files := { l.files with current := some (l.files.current.getD [] ++ line) }
      currentFileSize := l.currentFileSize + line.length
      log := l.log.append c.ringCapacity e nextId nowMs true }
  | none => { l with log := l.log.append c.ringCapacity e nextId nowMs false }

/-- A new log on the same files: `open`, then `replay`. -/
def restart (l : FileLog) : FileLog :=
  let file := l.files.current.getD []
  { files := { l.files with current := some file }
    currentFileSize := file.length
    log := ({} : EventLog).replay c.ringCapacity nf (some file) }

inductive Op
  | append (e : LoggedEvent) (nextId nowMs : UInt64)
  | restart

def step (l : FileLog) : Op → FileLog
  | .append e nextId nowMs => l.append nf c e nextId nowMs
  | .restart => l.restart nf c

/-- The event that an operation writes. -/
def Op.logged : Op → List LoggedEvent
  | .append e nextId nowMs =>
    if (eventLine nf.text (e.numbered nextId nowMs)).isSome then [e.numbered nextId nowMs] else []
  | .restart => []

/-- The attributes of an event that is appended are a map. -/
def Op.Mapped : Op → Prop
  | .append e _ _ => Observability.Mapped e.attrs
  | .restart => True

end Steps

/-! ### Rotation -/

theorem rename_apply {old new : ℕ} {files : ℕ → Option Text} (hne : old ≠ new) (hnew : files new = none) (i : ℕ) :
    LogFiles.rename old new files i = if i = new then files old else if i = old then none else files i := by
  unfold LogFiles.rename
  cases hold : files old with
  | some file =>
    by_cases hi : i = old
    · rw [if_neg (hi ▸ hne), if_pos hi, hi]
      exact Function.update_self ..
    · rw [if_neg hi]
      dsimp only
      rw [Function.update_of_ne hi]
      by_cases hto : i = new
      · rw [if_pos hto, hto]
        exact Function.update_self ..
      · rw [if_neg hto, Function.update_of_ne hto]
  | none =>
    dsimp only
    split
    · next hto => rw [hto, hnew]
    · split
      · next hi => rw [hi, hold]
      · rfl

/-- What has which number afterwards. -/
theorem shift_eq : ∀ {n : ℕ} {files : ℕ → Option Text}, files n = none → 0 < n → ∀ i,
    LogFiles.shift n files i = if 2 ≤ i ∧ i ≤ n then files (i - 1) else if i = 1 then none else files i
  | 1, files, hn, _, i => by
    have hshift : LogFiles.shift 1 files = files := rfl
    rw [hshift, if_neg (by omega)]
    split
    · next hi => rw [hi, hn]
    · rfl
  | n + 2, files, hn, _, i => by
    have hmoved := rename_apply (Nat.ne_of_lt (Nat.lt_succ_self (n + 1))) hn
    have hfrom : LogFiles.rename (n + 1) (n + 2) files (n + 1) = none := by
      rw [hmoved, if_neg (by omega), if_pos rfl]
    rw [LogFiles.shift, shift_eq hfrom (Nat.succ_pos n)]
    by_cases hmid : 2 ≤ i ∧ i ≤ n + 1
    · rw [if_pos hmid, if_pos (by omega), hmoved, if_neg (by omega), if_neg (by omega)]
    · rw [if_neg hmid]
      by_cases hlast : i = n + 2
      · rw [if_neg (by omega), if_pos (by omega), hmoved, if_pos hlast, hlast]
        rfl
      · rw [if_neg (show ¬ (2 ≤ i ∧ i ≤ n + 2) by omega)]
        split
        · rfl
        · rw [hmoved, if_neg hlast, if_neg (by omega)]

section Rotation

variable {F D : Type} {nf : Numbers F D} {c : LogConfig}

/-- The file of some events. -/
def fileOf (nf : Numbers F D) (es : List LoggedEvent) : Text := es.flatMap fun e => (eventLine nf.text e).getD []

/-- The next event goes into another file. -/
def Full (nf : Numbers F D) (c : LogConfig) (es : List LoggedEvent) : Prop := c.maxFileBytes ≤ (fileOf nf es).length

instance (es : List LoggedEvent) : Decidable (Full nf c es) := inferInstanceAs (Decidable (_ ≤ _))

/-- The files are those of the parts. -/
structure Represents (nf : Numbers F D) (f : LogFiles) (p : Parts LoggedEvent) : Prop where
  current : f.current = some (fileOf nf p.current)
  rotated : ∀ i, f.rotated (i + 1) = p.older[i]?.map (fileOf nf)

theorem Represents.rotate {f : LogFiles} {p : Parts LoggedEvent} (h : Represents nf f p)
    (hshort : p.older.length ≤ c.kept) :
    Represents nf (f.rotate c.maxRotatedFiles) ⟨[], (p.current :: p.older).take c.kept⟩ := by
  unfold LogConfig.kept at hshort ⊢
  unfold LogFiles.rotate
  rw [h.current]
  refine ⟨rfl, fun i => ?_⟩
  cases i with
  | zero =>
    have hhead : ((p.current :: p.older).take (max 1 c.maxRotatedFiles))[0]? = some p.current := by
      rw [List.getElem?_take_of_lt (by omega)]
      rfl
    dsimp only
    rw [hhead, Function.update_self]
    rfl
  | succ i =>
    dsimp only
    rw [Function.update_of_ne (by omega)]
    by_cases hzero : c.maxRotatedFiles = 0
    · have hnone : p.older[i + 1]? = none := List.getElem?_eq_none (by omega)
      rw [List.getElem?_eq_none (by simp; omega), hzero, LogFiles.shift, Function.update_of_ne (by omega),
        h.rotated, hnone]
      · exact fun _ h => by omega
    · have hgone : Function.update f.rotated c.maxRotatedFiles none c.maxRotatedFiles = none := Function.update_self ..
      rw [shift_eq hgone (Nat.pos_of_ne_zero hzero)]
      by_cases hin : i + 2 ≤ c.maxRotatedFiles
      · rw [if_pos (by omega), List.getElem?_take_of_lt (by omega), List.getElem?_cons_succ,
          Function.update_of_ne (by omega), ← h.rotated]
        rfl
      · have hnone : p.older[i + 1]? = none := List.getElem?_eq_none (by omega)
        rw [if_neg (by omega), if_neg (by omega), List.getElem?_eq_none (by simp; omega),
          Function.update_of_ne (by omega),
          h.rotated, hnone]

theorem fileOf_concat {e : LoggedEvent} {line : Text} (h : eventLine nf.text e = some line) (es : List LoggedEvent) :
    fileOf nf (es ++ [e]) = fileOf nf es ++ line := by
  simp [fileOf, h]

/-- A file is read as the events it is of. -/
theorem readEvents_fileOf (hfl : nf.text.Lawful) : ∀ {es : List LoggedEvent},
    (∀ e ∈ es, (eventLine nf.text e).isSome = true ∧ Mapped e.attrs) → readEvents nf (fileOf nf es) = es
  | [], _ => rfl
  | e :: es, h => by
    obtain ⟨⟨hline, hmapped⟩, hrest⟩ := List.forall_mem_cons.mp h
    obtain ⟨line, hsome⟩ := Option.isSome_iff_exists.mp hline
    obtain ⟨text, rfl, hne, hfeed, hread⟩ := readLine_eventLine hfl hmapped hsome
    have hcons : fileOf nf (e :: es) = text ++ [0x0A] ++ fileOf nf es := by simp [fileOf, hsome]
    have ih := readEvents_fileOf hfl hrest
    unfold readEvents at ih ⊢
    rw [hcons, Memory.importLines_cons hne hfeed, List.filterMap_cons, hread, ih]

end Rotation

/-! ### Runs -/

/-- The last ones. -/
def lastOf (n : ℕ) (es : List LoggedEvent) : List LoggedEvent := es.drop (es.length - n)

theorem length_lastOf (n : ℕ) (es : List LoggedEvent) : (lastOf n es).length = min n es.length := by
  rw [lastOf, List.length_drop]
  omega

theorem lastOf_concat (n : ℕ) (es : List LoggedEvent) (e : LoggedEvent) :
    lastOf n (lastOf n es ++ [e]) = lastOf n (es ++ [e]) := by
  have hlen := length_lastOf n es
  unfold lastOf at hlen ⊢
  rw [List.length_append, List.length_singleton, hlen, List.length_append, List.length_singleton]
  rcases Nat.lt_or_ge n (es.length + 1) with hlt | hge
  · have hcut : es.length + 1 - n = es.length - n + (min n es.length + 1 - n) := by omega
    rw [hcut, ← List.drop_drop, List.drop_append_of_le_length (Nat.sub_le es.length n)]
  · have hall : es.length - n = 0 := by omega
    have hboth : min n es.length + 1 - n = es.length + 1 - n := by omega
    rw [hall, hboth, List.drop_zero]

theorem recent_rebuildIndexes (l : EventLog) : l.rebuildIndexes.recent = l.recent := by
  rw [EventLog.rebuildIndexes, EventLog.foldl_addToIndexes]

theorem recent_append {n : ℕ} {l : EventLog} (h : l.recent.length ≤ n) (e : LoggedEvent) (nextId nowMs : UInt64) :
    (l.append n e nextId nowMs true).recent = lastOf n (l.recent ++ [e.numbered nextId nowMs]) := by
  have hlen : (l.recent ++ [e.numbered nextId nowMs]).length = l.recent.length + 1 := List.length_append
  have happend : l.append n e nextId nowMs true =
      if n < (l.recent ++ [e.numbered nextId nowMs]).length then
        EventLog.rebuildIndexes { l with recent := (l.recent ++ [e.numbered nextId nowMs]).tail }
      else EventLog.addToIndexes { l with recent := l.recent ++ [e.numbered nextId nowMs] }
        ((l.recent ++ [e.numbered nextId nowMs]).length - 1) (e.numbered nextId nowMs) := rfl
  rw [happend, lastOf, hlen]
  split
  · have hone : l.recent.length + 1 - n = 1 := by omega
    rw [recent_rebuildIndexes, hone, List.drop_one]
  · have hall : l.recent.length + 1 - n = 0 := by omega
    rw [hall, List.drop_zero]
    rfl

section Runs

variable {F D : Type} {nf : Numbers F D} {c : LogConfig} {all : List LoggedEvent} {l : FileLog}

/-- What holds of the log when `all` was written, the files are those of `p`, and `seen`
came into the ring. -/
structure Holds (nf : Numbers F D) (c : LogConfig) (all : List LoggedEvent) (l : FileLog) (p : Parts LoggedEvent)
    (seen : List LoggedEvent) : Prop where
  keeps : Keeps (Full nf c) c.kept all p
  files : Represents nf l.files p
  size : l.currentFileSize = (fileOf nf p.current).length
  readable : ∀ e ∈ all, (eventLine nf.text e).isSome = true ∧ Mapped e.attrs
  ring : l.log.recent = lastOf c.ringCapacity seen
  newest : p.current <:+ seen
  known : ∀ e ∈ seen, e ∈ all
  indexed : l.log.Indexed

variable {p : Parts LoggedEvent} {seen : List LoggedEvent}

theorem Holds.current_known (h : Holds nf c all l p seen) : ∀ e ∈ p.current, e ∈ all := by
  obtain ⟨dropped, hall, -⟩ := h.keeps.suffix
  intro e he
  rw [hall]
  exact List.mem_append_right _ (List.mem_append_right _ he)

theorem Holds.current_readable (h : Holds nf c all l p seen) :
    ∀ e ∈ p.current, (eventLine nf.text e).isSome = true ∧ Mapped e.attrs :=
  fun e he => h.readable e (h.current_known e he)

theorem Holds.rotateIfNeeded (h : Holds nf c all l p seen) :
    Holds nf c all (l.rotateIfNeeded c) (p.turn (Full nf c) c.kept) seen := by
  have hturn := h.keeps.turn
  unfold FileLog.rotateIfNeeded
  unfold Parts.turn at hturn ⊢
  by_cases hfull : Full nf c p.current
  · have hlarge : ¬ l.currentFileSize < c.maxFileBytes := by
      rw [h.size]
      exact Nat.not_lt.mpr hfull
    rw [if_pos hfull] at hturn ⊢
    rw [if_neg hlarge]
    exact ⟨hturn, h.files.rotate h.keeps.short, rfl, h.readable, h.ring, List.nil_suffix, h.known, h.indexed⟩
  · have hsmall : l.currentFileSize < c.maxFileBytes := by
      rw [h.size]
      exact Nat.not_le.mp hfull
    rw [if_neg hfull, if_pos hsmall]
    exact h

theorem mapped_numbered {e : LoggedEvent} (he : Mapped e.attrs) (nextId nowMs : UInt64) :
    Mapped (e.numbered nextId nowMs).attrs := by
  unfold LoggedEvent.numbered
  dsimp only
  split <;> split <;> exact he

theorem Holds.append (h : Holds nf c all l p seen) {e : LoggedEvent} (he : Mapped e.attrs) (nextId nowMs : UInt64) :
    ∃ p' seen', Holds nf c (all ++ Op.logged nf (.append e nextId nowMs)) (l.append nf c e nextId nowMs) p' seen' := by
  have hroom := h.rotateIfNeeded
  have hmapped := mapped_numbered he nextId nowMs
  set p' := p.turn (Full nf c) c.kept
  set l' := l.rotateIfNeeded c
  have hlogged : Op.logged nf (.append e nextId nowMs) =
      if (eventLine nf.text (e.numbered nextId nowMs)).isSome then [e.numbered nextId nowMs] else [] := rfl
  rw [hlogged]
  unfold FileLog.append
  cases hline : eventLine nf.text (e.numbered nextId nowMs) with
  | none =>
    refine ⟨p', seen, ?_⟩
    rw [Option.isSome_none, if_neg Bool.false_ne_true, List.append_nil]
    exact ⟨hroom.keeps, hroom.files, hroom.size, hroom.readable, hroom.ring, hroom.newest, hroom.known,
      hroom.indexed.append c.ringCapacity e nextId nowMs false⟩
  | some line =>
    refine ⟨p'.put (e.numbered nextId nowMs), seen ++ [e.numbered nextId nowMs], ?_⟩
    rw [Option.isSome_some, if_pos rfl]
    have hfile := fileOf_concat hline p'.current
    refine ⟨hroom.keeps.put _, ⟨?_, hroom.files.rotated⟩, ?_, ?_, ?_, ?_, ?_, ?_⟩
    · change some (l'.files.current.getD [] ++ line) = some (fileOf nf (p'.current ++ [e.numbered nextId nowMs]))
      rw [hroom.files.current, hfile]
      rfl
    · change l'.currentFileSize + line.length = (fileOf nf (p'.current ++ [e.numbered nextId nowMs])).length
      rw [hroom.size, hfile, List.length_append]
    · refine List.forall_mem_append.mpr ⟨hroom.readable, List.forall_mem_singleton.mpr ⟨?_, hmapped⟩⟩
      rw [hline]
      rfl
    · have hshort : l'.log.recent.length ≤ c.ringCapacity := by
        rw [hroom.ring, length_lastOf]
        exact Nat.min_le_left _ _
      change (l'.log.append c.ringCapacity e nextId nowMs true).recent = _
      rw [recent_append hshort, hroom.ring, lastOf_concat]
    · obtain ⟨front, hfront⟩ := hroom.newest
      exact ⟨front, by rw [← hfront, Parts.put, List.append_assoc]⟩
    · intro e' he'
      rcases List.mem_append.mp he' with he' | he'
      · exact List.mem_append_left _ (hroom.known e' he')
      · exact List.mem_append_right _ he'
    · exact hroom.indexed.append c.ringCapacity e nextId nowMs true

theorem Holds.restart (hfl : nf.text.Lawful) (h : Holds nf c all l p seen) :
    Holds nf c all (l.restart nf c) p p.current := by
  have hread := readEvents_fileOf hfl h.current_readable
  have hfile : l.files.current.getD [] = fileOf nf p.current := by
    rw [h.files.current]
    rfl
  unfold FileLog.restart
  rw [hfile]
  refine ⟨h.keeps, ⟨rfl, h.files.rotated⟩, rfl, h.readable, ?_, List.suffix_rfl, h.current_known,
    EventLog.indexed_rebuildIndexes _⟩
  dsimp only [EventLog.replay]
  rw [recent_rebuildIndexes, hread]
  rfl

/-- A log on an empty directory. -/
def opened (nf : Numbers F D) (c : LogConfig) : FileLog := ({} : FileLog).restart nf c

theorem holds_opened : Holds nf c [] (opened nf c) {} [] where
  keeps := Rotation.keeps_empty
  files := ⟨rfl, fun _ => rfl⟩
  size := rfl
  readable _ he := absurd he List.not_mem_nil
  ring := (recent_rebuildIndexes _).trans rfl
  newest := List.suffix_rfl
  known _ he := absurd he List.not_mem_nil
  indexed := EventLog.indexed_rebuildIndexes _

theorem Holds.step (hfl : nf.text.Lawful) (h : Holds nf c all l p seen) {op : Op} (hop : op.Mapped) :
    ∃ p' seen', Holds nf c (all ++ op.logged nf) (l.step nf c op) p' seen' := by
  cases op with
  | append e nextId nowMs => exact h.append hop nextId nowMs
  | restart =>
    refine ⟨p, p.current, ?_⟩
    have hnone : Op.logged nf .restart = [] := rfl
    rw [hnone, List.append_nil]
    exact h.restart hfl

theorem holds_run (hfl : nf.text.Lawful) : ∀ {os : List Op} {all : List LoggedEvent} {l : FileLog}
    {p : Parts LoggedEvent} {seen : List LoggedEvent}, Holds nf c all l p seen → (∀ op ∈ os, op.Mapped) →
      ∃ p' seen', Holds nf c (all ++ os.flatMap (Op.logged nf)) (Run.run (FileLog.step nf c) l os) p' seen'
  | [], all, _, p, seen, h, _ => ⟨p, seen, by simpa using h⟩
  | op :: os, all, l, p, seen, h, hos => by
    obtain ⟨hop, hrest⟩ := List.forall_mem_cons.mp hos
    obtain ⟨p', seen', h'⟩ := h.step hfl hop
    have ih := holds_run hfl h' hrest
    rwa [List.append_assoc, ← List.flatMap_cons] at ih

/-- **What the files hold**: after any appends and restarts, all events that were written
but for the oldest, each once and in order, the newest in the file that is written to.
None is lost while there are fewer files than are kept, and those that are not written to
any more are as large as a file may be. -/
theorem rotated_run (hfl : nf.text.Lawful) (c : LogConfig) (os : List Op) (hos : ∀ op ∈ os, op.Mapped) :
    ∃ p, Keeps (Full nf c) c.kept (os.flatMap (Op.logged nf)) p ∧
      Represents nf (Run.run (FileLog.step nf c) (opened nf c) os).files p ∧
      ∀ es ∈ p.current :: p.older, readEvents nf (fileOf nf es) = es := by
  obtain ⟨p, seen, h⟩ := holds_run hfl holds_opened hos
  rw [List.nil_append] at h
  refine ⟨p, h.keeps, h.files, fun es hes => readEvents_fileOf hfl fun e he => h.readable e ?_⟩
  obtain ⟨dropped, hall, -⟩ := h.keeps.suffix
  rw [hall, Parts.held]
  rcases List.mem_cons.mp hes with rfl | hes
  · exact List.mem_append_right _ (List.mem_append_right _ he)
  · exact List.mem_append_right _ (List.mem_append_left _
      (List.mem_flatten.mpr ⟨es, List.mem_reverse.mpr hes, he⟩))

theorem log_ext {l l' : EventLog} (h : l.Indexed) (h' : l'.Indexed) (hrecent : l.recent = l'.recent) : l = l' := by
  have hbody : ∀ {l : EventLog}, l.Indexed → l = ⟨l.recent, PositionIndex.entries EventLog.memoryKey l.recent,
      PositionIndex.entries EventLog.traceKey l.recent, PositionIndex.entries (fun e => some e.kind) l.recent⟩ :=
    fun h => by rw [← h.byMemoryId, ← h.byTraceId, ← h.byKind]
  rw [hbody h, hbody h', hrecent]

/-- **What a restart leaves**: after any appends and restarts, the log is as it was, with
every answer, if and only if the file that is written to has at least as many events as
the ring. The others are in files that are not read. -/
theorem restart_iff (hfl : nf.text.Lawful) (c : LogConfig) (os : List Op) (hos : ∀ op ∈ os, op.Mapped) :
    let l := Run.run (FileLog.step nf c) (opened nf c) os
    let file := readEvents nf (l.files.current.getD [])
    (l.restart nf c).log.recent = lastOf c.ringCapacity file ∧
      ((l.restart nf c).log = l.log ↔ l.log.recent.length ≤ file.length) := by
  intro l file
  obtain ⟨p, seen, h⟩ := holds_run hfl holds_opened hos
  rw [List.nil_append] at h
  have hfile : file = p.current := by
    have hcurrent : l.files.current = some (fileOf nf p.current) := h.files.current
    change readEvents nf (l.files.current.getD []) = _
    rw [hcurrent]
    exact readEvents_fileOf hfl h.current_readable
  have hrestart := h.restart hfl
  rw [hfile]
  refine ⟨hrestart.ring, ?_⟩
  have hring : l.log.recent = lastOf c.ringCapacity seen := h.ring
  have hnew : (l.restart nf c).log.recent = lastOf c.ringCapacity p.current := hrestart.ring
  obtain ⟨front, hfront⟩ := h.newest
  have hlen : seen.length = front.length + p.current.length := by rw [← hfront, List.length_append]
  have hold := length_lastOf c.ringCapacity seen
  have hcut := length_lastOf c.ringCapacity p.current
  constructor
  · intro hsame
    have hrecent : lastOf c.ringCapacity p.current = lastOf c.ringCapacity seen := by rw [← hnew, ← hring, hsame]
    rw [hring, ← hrecent, hcut]
    exact Nat.min_le_right _ _
  · intro hle
    refine log_ext hrestart.indexed h.indexed ?_
    rw [hring] at hle
    rw [hnew, hring, lastOf, lastOf, ← hfront, List.length_append]
    rw [hold] at hle
    by_cases hroom : front = []
    · rw [hroom]
      simp
    · have hfull : c.ringCapacity ≤ p.current.length := by
        have hpos := List.length_pos_of_ne_nil hroom
        omega
      have hskip : front.length + p.current.length - c.ringCapacity =
          front.length + (p.current.length - c.ringCapacity) := by omega
      rw [hskip, ← List.drop_drop, List.drop_left]

end Runs

/-- Two events, of which the second one goes into another file. -/
def twoFiles : List Op := [.append { memoryId := 3 } 7 9, .append { memoryId := 3, summary := Utf8.bytes "x" } 8 9]

theorem mapped_twoFiles : ∀ op ∈ twoFiles, op.Mapped := by
  have hnil : Mapped [] := List.Pairwise.nil
  exact List.forall_mem_cons.mpr ⟨hnil, List.forall_mem_singleton.mpr hnil⟩

theorem rotated_twoFiles : ∃ p,
    Keeps (Full Numbers.whole { maxFileBytes := 1 }) 5 (twoFiles.flatMap (Op.logged Numbers.whole)) p ∧
    Represents Numbers.whole (Run.run (FileLog.step Numbers.whole { maxFileBytes := 1 })
      (opened Numbers.whole { maxFileBytes := 1 }) twoFiles).files p ∧
    ∀ es ∈ p.current :: p.older, readEvents Numbers.whole (fileOf Numbers.whole es) = es :=
  rotated_run RawRecord.lawful_whole.text { maxFileBytes := 1 } twoFiles mapped_twoFiles

/-- A restart leaves the second one only. -/
theorem restart_twoFiles :
    let l := Run.run (FileLog.step Numbers.whole { maxFileBytes := 1 }) (opened Numbers.whole { maxFileBytes := 1 }) twoFiles
    (l.restart Numbers.whole { maxFileBytes := 1 }).log ≠ l.log := by
  intro l
  have hiff := (restart_iff RawRecord.lawful_whole.text { maxFileBytes := 1 } twoFiles mapped_twoFiles).2
  exact hiff.not.mpr (by decide +kernel)

end FileLog

end Observability
end Amind
