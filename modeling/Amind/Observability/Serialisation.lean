/-
# Writing events to the log

Before an event gets into the ring it is written to the file of the log, if that is
open, as a line of JSON. Only well-formed UTF-8 can be written; of an event with any
other text nothing is, and an exception leaves `append` (`appends_iff`).

A text that is shortened for an event is cut where no character goes on, so it
stays well formed (`valid_truncateUtf8`).

Key definitions: `eventToJson`, `appends`, `Serialisable`.
-/
import Amind.Lib.Characters
import Amind.Memory.Enumerate
import Amind.Observability.EventLog

namespace Amind
namespace Observability

open Amind.Core
open Amind.Memory (toStr member getText)
open WireFormat (MAX_SIZE)

/-! ### Lines -/

def kindToString (k : EventKind) : Utf8Text :=
  ((kindTable.find? fun e => k = e.1).map fun e => Utf8.lit e.2).getD (Utf8.lit "Unknown")

def statusToString (s : EventStatus) : Utf8Text :=
  ((statusTable.find? fun e => s = e.1).map fun e => Utf8.lit e.2).getD (Utf8.lit "Unknown")

section Lines

variable {D : Type}

def attrMember (a : String × Text) : Option (Utf8Text × Json D) := (toStr a.2).map fun v => (Utf8.lit a.1, v)

/-- An event as it is written. Writing a text that is not well formed throws. -/
def eventToJson (e : LoggedEvent) : Option (Json D) := do
  let agentId ← toStr e.agentId
  let summary ← toStr e.summary
  let attrs ← e.attrs.mapM attrMember
  pure <| .obj <| Keyed.ofPairs <|
    [(Utf8.lit "event_id", .int e.eventId.toNat),
      (Utf8.lit "parent_event_id", .int e.parentEventId.toNat),
      (Utf8.lit "trace_id", .int e.traceId.toNat),
      (Utf8.lit "memory_id", .int e.memoryId.toNat),
      (Utf8.lit "ts", .int e.timestampMs.toNat),
      (Utf8.lit "dur", .int e.durationMs.toNat),
      (Utf8.lit "ns", agentId),
      (Utf8.lit "kind", .str (kindToString e.kind)),
      (Utf8.lit "status", .str (statusToString e.status)),
      (Utf8.lit "summary", summary)] ++
    if e.attrs = [] then [] else [(Utf8.lit "attrs", .obj (Keyed.ofPairs attrs))]

variable (fl : Json.Library D)

def eventLine (e : LoggedEvent) : Option Text := (eventToJson e).map fun j => fl.dump j ++ [0x0A]

/-- Appending an event returns: its line can be written, if the file is open. -/
def appends (fileOpen : Bool) (e : LoggedEvent) : Bool := !fileOpen || (eventLine fl e).isSome

/-- Append one event after another, under ids and times of the log, up to one that
throws. -/
def EventLog.appendAll (ringCapacity : ℕ) (fileOpen : Bool) :
    List (MemoryEvent × UInt64 × UInt64) → EventLog → EventLog × Bool
  | [], l => (l, true)
  | (e, nextId, nowMs) :: es, l =>
    let ev : LoggedEvent := { e with }
    if appends fl fileOpen ev then
      EventLog.appendAll ringCapacity fileOpen es (l.append ringCapacity ev nextId nowMs true)
    else (l.append ringCapacity ev nextId nowMs false, false)

end Lines

/-! ### What can be written -/

/-- All texts of an event are well formed. -/
structure Serialisable (e : MemoryEvent) : Prop where
  agentId : Utf8.valid e.agentId = true
  summary : Utf8.valid e.summary = true
  attrs : ∀ a ∈ e.attrs, Utf8.valid a.2 = true

section Serialisation

variable {D : Type} {fl : Json.Library D}

theorem isSome_toStr {t : Text} : (toStr t : Option (Json D)).isSome = true ↔ Utf8.valid t = true := by
  unfold toStr
  split <;> simp [*]

theorem isSome_attrs : ∀ {attrs : List (String × Text)},
    (attrs.mapM (attrMember (D := D))).isSome = true ↔ ∀ a ∈ attrs, Utf8.valid a.2 = true
  | [] => by simp
  | a :: attrs => by
    rw [List.forall_mem_cons, ← isSome_toStr (D := D), ← isSome_attrs, List.mapM_cons, attrMember]
    cases toStr a.2 <;> cases attrs.mapM (attrMember (D := D)) <;> simp

/-- **An event is written** if all its texts are well formed, and only then. -/
theorem isSome_eventLine {e : LoggedEvent} : (eventLine fl e).isSome = true ↔ Serialisable e.toMemoryEvent := by
  have hiff : Serialisable e.toMemoryEvent ↔ (toStr e.agentId : Option (Json D)).isSome = true ∧
      (toStr e.summary : Option (Json D)).isSome = true ∧ (e.attrs.mapM (attrMember (D := D))).isSome = true := by
    rw [isSome_toStr, isSome_toStr, isSome_attrs]
    exact ⟨fun h => ⟨h.agentId, h.summary, h.attrs⟩, fun ⟨h₁, h₂, h₃⟩ => ⟨h₁, h₂, h₃⟩⟩
  rw [hiff, eventLine, Option.isSome_map, eventToJson]
  cases (toStr e.agentId : Option (Json D)) <;> cases (toStr e.summary : Option (Json D)) <;>
    cases e.attrs.mapM (attrMember (D := D)) <;> simp

theorem appends_iff {fileOpen : Bool} {e : LoggedEvent} :
    appends fl fileOpen e = true ↔ (fileOpen = true → Serialisable e.toMemoryEvent) := by
  have hline : (eventLine fl e).isSome = true ↔ Serialisable e.toMemoryEvent := isSome_eventLine
  rw [← hline, appends]
  cases fileOpen <;> simp

/-- Events get through together if each of them does. -/
theorem appendAll_iff {ringCapacity : ℕ} {fileOpen : Bool} :
    ∀ {es : List (MemoryEvent × UInt64 × UInt64)} {l : EventLog},
    (EventLog.appendAll fl ringCapacity fileOpen es l).2 = true ↔ (fileOpen = true → ∀ e ∈ es, Serialisable e.1)
  | [], l => by simp [EventLog.appendAll]
  | (e, nextId, nowMs) :: es, l => by
    rw [EventLog.appendAll]
    split
    · next h =>
      rw [appendAll_iff, List.forall_mem_cons]
      have he := appends_iff.mp h
      exact ⟨fun hes hopen => ⟨he hopen, hes hopen⟩, fun hall hopen => (hall hopen).2⟩
    · next h =>
      rw [appends_iff] at h
      simp only [Bool.false_eq_true, false_iff]
      exact fun hall => h fun hopen => hall hopen _ List.mem_cons_self

/-- What is read from JSON is well formed, and so is what is taken without. -/
theorem valid_member {j : Json D} {key : String} {otherwise t : Text} (h : Utf8.valid otherwise = true)
    (ht : member j key getText otherwise = some t) : Utf8.valid t = true := by
  unfold member at ht
  split at ht
  · split at ht
    · next v _ =>
      cases v with
      | str s =>
        rw [← Option.some.inj ht]
        exact s.property
      | _ => cases ht
    · rw [← Option.some.inj ht]
      exact h
  · cases ht

end Serialisation

/-! ### Shortened texts -/

/-- A byte with these two bits continues a character. -/
theorem and_mask_iff (b : UInt8) : b &&& 0xC0 = 0x80 ↔ Utf8.cont b = true := by
  have hall : ∀ b : Fin 256, UInt8.ofFin b &&& 0xC0 = 0x80 ↔ Utf8.cont (.ofFin b) = true := by decide +kernel
  exact hall b.toFin

/-- A code point starts where the cut is moved back to, or nothing is before it. -/
theorem codePointStart_spec (s : Text) : ∀ cut, codePointStart s cut = 0 ∨
    ∀ b, s[codePointStart s cut]? = some b → Utf8.cont b = false
  | 0 => .inl rfl
  | cut + 1 => by
    unfold codePointStart
    split
    · exact codePointStart_spec s cut
    · next h =>
      refine .inr fun b hb => ?_
      rw [hb, Option.any_some, decide_eq_true_iff, and_mask_iff] at h
      exact Bool.eq_false_iff.mpr h

/-- **A shortened text stays well formed.** -/
theorem valid_truncateUtf8 {s : Text} (h : Utf8.valid s = true) (maxBytes : ℕ) :
    Utf8.valid (truncateUtf8 s maxBytes) = true := by
  unfold truncateUtf8
  split
  · exact h
  · have hcut : Utf8.valid (s.take (codePointStart s maxBytes)) = true := by
      obtain hzero | hstart := codePointStart_spec s maxBytes
      · rw [hzero, List.take_zero]
        rfl
      · exact (Utf8.valid_take_iff h _).mpr hstart
    rw [Utf8.valid_append hcut]
    exact Utf8.valid_bytes _

/-- So does one of which only the first bytes are left, if more than are asked for. -/
theorem valid_truncateUtf8_take {s : Text} (h : Utf8.valid s = true) {n maxBytes : ℕ} (hn : maxBytes < n) :
    Utf8.valid (truncateUtf8 (s.take n) maxBytes) = true := by
  have hstart : ∀ {k}, k < n → codePointStart (s.take n) k = codePointStart s k ∧ codePointStart s k ≤ k := by
    intro k
    induction k with
    | zero => exact fun _ => ⟨rfl, Nat.le_refl 0⟩
    | succ k ih =>
      intro hk
      obtain ⟨heq, hle⟩ := ih (by omega)
      rw [codePointStart, codePointStart, List.getElem?_take_of_lt hk]
      split
      · exact ⟨heq, hle.trans (Nat.le_succ k)⟩
      · exact ⟨rfl, Nat.le_refl _⟩
  obtain hshort | hlong := Nat.lt_or_ge n s.length
  · have hcut := valid_truncateUtf8 h maxBytes
    obtain ⟨heq, hle⟩ := hstart hn
    unfold truncateUtf8 at hcut ⊢
    rw [if_neg (by omega)] at hcut
    rwa [if_neg (by rw [List.length_take]; omega), heq, List.take_take, Nat.min_eq_left (by omega)]
  · rw [List.take_of_length_le hlong]
    exact valid_truncateUtf8 h maxBytes

/-! ### Texts of a store -/

/-- A well-formed text, or what comes back of it from a store. -/
def Kept (t : Text) : Prop := ∃ s, Utf8.valid s = true ∧ (t = s ∨ t = s.take MAX_SIZE)

theorem Kept.take {t : Text} (h : Kept t) : Kept (t.take MAX_SIZE) := by
  obtain ⟨s, hs, rfl | rfl⟩ := h
  · exact ⟨t, hs, .inr rfl⟩
  · exact ⟨s, hs, .inr (by rw [List.take_take, Nat.min_self])⟩

theorem Kept.valid_truncateUtf8 {t : Text} (h : Kept t) {maxBytes : ℕ} (hlt : maxBytes < MAX_SIZE) :
    Utf8.valid (truncateUtf8 t maxBytes) = true := by
  obtain ⟨s, hs, rfl | rfl⟩ := h
  · exact Observability.valid_truncateUtf8 hs maxBytes
  · exact valid_truncateUtf8_take hs hlt

end Observability
end Amind
