/-
# The event log in memory

The log keeps the last events in a ring, oldest first, and indexes of positions
into it: by memory, by trace and by kind. Events without a memory, or without a
trace, are not in that index. A query goes through the index of the memory or
the trace it asks for, or scans the ring if it asks for neither. Two things set
it apart from a scan: it looks at its limit only after it has taken an event, so
a limit of 0 is one of 1; and a query for id 0 finds nothing, because no event
with id 0 is in an index.

Key definitions: `EventLog.append`, `EventLog.replay`, `EventLog.query`, `scan`.
Key theorems: `query_eq`, `query_eq_scan_iff`.
-/
import Amind.Lib.PositionIndex
import Amind.Lib.Run
import Amind.Memory.Import
import Amind.Observability.MemoryEvent

namespace Amind
namespace Observability

open Amind.Core
open Amind.Memory (member getText)

/-- An event, with the id it has in the log. -/
structure LoggedEvent extends MemoryEvent where
  eventId : UInt64 := 0
  deriving DecidableEq

/-! ### Reading the file -/

def kindTable : List (EventKind × String) :=
  [(.store, "Store"), (.embed, "Embed"), (.gate, "Gate"), (.derive, "Derive"), (.reconcile, "Reconcile"),
    (.lineagePropagate, "LineagePropagate"), (.graphEdge, "GraphEdge"), (.versionUpdate, "VersionUpdate"),
    (.recall, "Recall"), (.recallSemantic, "RecallSemantic"), (.recallFilter, "RecallFilter"),
    (.recallStale, "RecallStale"), (.gcDecay, "GcDecay"), (.gcArchive, "GcArchive"),
    (.gcTombstone, "GcTombstone"), (.gcVacuum, "GcVacuum"), (.consolidate, "Consolidate"),
    (.resurrect, "Resurrect"), (.providerCall, "ProviderCall"), (.error, "Error")]

def statusTable : List (EventStatus × String) :=
  [(.ok, "Ok"), (.rejected, "Rejected"), (.deferred, "Deferred"), (.failed, "Failed"), (.noOp, "NoOp")]

def kindFromString (s : Text) : EventKind :=
  ((kindTable.find? fun e => s = Utf8.bytes e.2).map (·.1)).getD .error

def statusFromString (s : Text) : EventStatus :=
  ((statusTable.find? fun e => s = Utf8.bytes e.2).map (·.1)).getD .ok

section Replay

variable {F D : Type} (nf : Numbers F D)

/-- The attributes of a line, if it has any. One that is not a text throws. -/
def attrsOf (j : Json D) : Option (List (String × Text)) :=
  match j.find (Utf8.lit "attrs") with
  | some (.obj ms) =>
    ms.mapM fun m => (getText m.2).map fun v => ((String.fromUTF8? ⟨m.1.val.toArray⟩).getD "", v)
  | _ => some []

def jsonToEvent (j : Json D) : Option LoggedEvent := do
  let eventId ← member j "event_id" (fun v => (toInt nf v).map UInt64.ofInt) 0
  let parentEventId ← member j "parent_event_id" (fun v => (toInt nf v).map UInt64.ofInt) 0
  let traceId ← member j "trace_id" (fun v => (toInt nf v).map UInt64.ofInt) 0
  let memoryId ← member j "memory_id" (fun v => (toInt nf v).map UInt64.ofInt) 0
  let timestampMs ← member j "ts" (fun v => (toInt nf v).map UInt64.ofInt) 0
  let durationMs ← member j "dur" (fun v => (toIntOrBool nf v).map UInt32.ofInt) 0
  let agentId ← member j "ns" getText []
  let kind ← member j "kind" getText (Utf8.bytes "Store")
  let status ← member j "status" getText (Utf8.bytes "Ok")
  let summary ← member j "summary" getText []
  let attrs ← attrsOf j
  pure { eventId, parentEventId, traceId, memoryId, timestampMs, durationMs, agentId,
         kind := kindFromString kind, status := statusFromString status, summary, attrs }

/-- The events of a file, without the lines that cannot be read. -/
def readEvents (file : Text) : List LoggedEvent :=
  (Memory.importLines file).filterMap fun line => (nf.text.parse line).bind (jsonToEvent nf)

end Replay

/-! ### The ring and its indexes -/

structure EventLog where
  recent : List LoggedEvent := []
  byMemoryId : List (UInt64 × ℕ) := []
  byTraceId : List (UInt64 × ℕ) := []
  byKind : List (EventKind × ℕ) := []

namespace EventLog

/-- An id as a key: 0 is none. -/
def nonzero (id : UInt64) : Option UInt64 := if id ≠ 0 then some id else none

def memoryKey (e : LoggedEvent) : Option UInt64 := nonzero e.memoryId

def traceKey (e : LoggedEvent) : Option UInt64 := nonzero e.traceId

def addToIndexes (l : EventLog) (pos : ℕ) (ev : LoggedEvent) : EventLog :=
  { l with
    byMemoryId := PositionIndex.add memoryKey l.byMemoryId pos ev
    byTraceId := PositionIndex.add traceKey l.byTraceId pos ev
    byKind := PositionIndex.add (fun e => some e.kind) l.byKind pos ev }

def rebuildIndexes (l : EventLog) : EventLog :=
  l.recent.zipIdx.foldl (fun l p => l.addToIndexes p.2 p.1) { recent := l.recent }

variable (ringCapacity : ℕ)

/-- Add an event, under an id and a time of the log's own if it has none. If the
line could not be written the exception leaves the ring as it is. -/
def append (l : EventLog) (ev : LoggedEvent) (nextId nowMs : UInt64) (persisted : Bool) : EventLog :=
  let ev := if ev.eventId = 0 then { ev with eventId := nextId } else ev
  let ev := if ev.timestampMs = 0 then { ev with timestampMs := nowMs } else ev
  if persisted then
    let recent := l.recent ++ [ev]
    if ringCapacity < recent.length then rebuildIndexes { l with recent := recent.tail }
    else addToIndexes { l with recent } (recent.length - 1) ev
  else l

/-- Read the events of the file into the ring, after those that are there. -/
def replay {F D : Type} (nf : Numbers F D) (l : EventLog) : Option Text → EventLog
  | none => l
  | some file =>
    let recent := l.recent ++ readEvents nf file
    rebuildIndexes { l with recent := recent.drop (recent.length - ringCapacity) }

def clearMemory (_ : EventLog) : EventLog := {}

/-! ### Queries -/

structure Filter where
  memoryId : Option UInt64 := none
  traceId : Option UInt64 := none
  kind : Option EventKind := none
  status : Option EventStatus := none
  agentIdFilter : Text := []
  sinceMs : UInt64 := 0
  untilMs : UInt64 := 0
  limit : ℕ := 200

/-- All conditions of the filter. -/
def Filter.matches (f : Filter) (e : LoggedEvent) : Bool :=
  f.memoryId.all (fun m => e.memoryId = m) && f.traceId.all (fun t => e.traceId = t) &&
  f.kind.all (fun k => e.kind = k) && f.status.all (fun s => e.status = s) &&
  (f.agentIdFilter = [] || e.agentId.take f.agentIdFilter.length = f.agentIdFilter) &&
  (f.sinceMs = 0 || !(e.timestampMs < f.sinceMs)) && (f.untilMs = 0 || !(e.timestampMs > f.untilMs))

/-- Take the events that match, until there are as many as the limit. -/
def collect (f : Filter) : List LoggedEvent → List LoggedEvent → List LoggedEvent
  | out, [] => out
  | out, e :: es =>
    if f.matches e then
      if f.limit ≤ (out ++ [e]).length then out ++ [e] else collect f (out ++ [e]) es
    else collect f out es

/-- The events at the positions of an index, the highest first. -/
def collectFrom (l : EventLog) (f : Filter) (idx : List (UInt64 × ℕ)) (key : UInt64) : List LoggedEvent :=
  collect f [] ((PositionIndex.descending (PositionIndex.lookup idx key)).filterMap fun pos => l.recent[pos]?)

def query (l : EventLog) (f : Filter) : List LoggedEvent :=
  match f.memoryId, f.traceId with
  | some m, _ => l.collectFrom f l.byMemoryId m
  | none, some t => l.collectFrom f l.byTraceId t
  | none, none => collect f [] l.recent.reverse

/-! ### The log over time -/

inductive Op
  | append (ev : LoggedEvent) (nextId nowMs : UInt64) (persisted : Bool)
  | replay (file : Option Text)
  | clearMemory

def step {F D : Type} (nf : Numbers F D) (l : EventLog) : Op → EventLog
  | .append ev nextId nowMs persisted => l.append ringCapacity ev nextId nowMs persisted
  | .replay file => l.replay ringCapacity nf file
  | .clearMemory => l.clearMemory

/-- The indexes are those of the ring. -/
structure Indexed (l : EventLog) : Prop where
  byMemoryId : l.byMemoryId = PositionIndex.entries memoryKey l.recent
  byTraceId : l.byTraceId = PositionIndex.entries traceKey l.recent
  byKind : l.byKind = PositionIndex.entries (fun e => some e.kind) l.recent

theorem indexed_empty : Indexed {} := ⟨rfl, rfl, rfl⟩

theorem foldl_addToIndexes : ∀ (ps : List (LoggedEvent × ℕ)) (l : EventLog),
    ps.foldl (fun l p => l.addToIndexes p.2 p.1) l =
      { recent := l.recent
        byMemoryId := ps.foldl (fun idx p => PositionIndex.add memoryKey idx p.2 p.1) l.byMemoryId
        byTraceId := ps.foldl (fun idx p => PositionIndex.add traceKey idx p.2 p.1) l.byTraceId
        byKind := ps.foldl (fun idx p => PositionIndex.add (fun e => some e.kind) idx p.2 p.1) l.byKind }
  | [], _ => rfl
  | p :: ps, l => foldl_addToIndexes ps (l.addToIndexes p.2 p.1)

theorem indexed_rebuildIndexes (l : EventLog) : l.rebuildIndexes.Indexed := by
  rw [rebuildIndexes, foldl_addToIndexes]
  exact ⟨PositionIndex.foldl_add _ _, PositionIndex.foldl_add _ _, PositionIndex.foldl_add _ _⟩

theorem Indexed.addToIndexes {l : EventLog} (h : l.Indexed) (ev : LoggedEvent) :
    (EventLog.addToIndexes { l with recent := l.recent ++ [ev] } l.recent.length ev).Indexed where
  byMemoryId := by simp only [EventLog.addToIndexes, h.byMemoryId, PositionIndex.add_entries]
  byTraceId := by simp only [EventLog.addToIndexes, h.byTraceId, PositionIndex.add_entries]
  byKind := by simp only [EventLog.addToIndexes, h.byKind, PositionIndex.add_entries]

theorem Indexed.append {l : EventLog} (h : l.Indexed) (ev : LoggedEvent) (nextId nowMs : UInt64)
    (persisted : Bool) : (l.append ringCapacity ev nextId nowMs persisted).Indexed := by
  unfold EventLog.append
  extract_lets ev ev recent
  split
  · split
    · exact indexed_rebuildIndexes _
    · have hlen : recent.length - 1 = l.recent.length := by simp [recent]
      rw [hlen]
      exact h.addToIndexes ev
  · exact h

/-- A step keeps the indexes. -/
theorem Indexed.step {F D : Type} (nf : Numbers F D) {l : EventLog} (h : l.Indexed) (op : Op) :
    (l.step ringCapacity nf op).Indexed := by
  cases op with
  | append ev nextId nowMs persisted => exact h.append _ _ _ _ _
  | replay file =>
    cases file with
    | none => exact h
    | some file => exact indexed_rebuildIndexes _
  | clearMemory => exact indexed_empty

theorem indexed_run {F D : Type} (nf : Numbers F D) (os : List Op) :
    (Run.run (step ringCapacity nf) {} os).Indexed :=
  Run.run_inv (step ringCapacity nf) (I := fun _ l => l.Indexed) (C := fun _ _ => True)
    (fun _ _ op h _ => h.step ringCapacity nf op) os [] _ indexed_empty (Run.along_true _ _)

/-! ### What a query returns -/

/-- The first events the filter lets through, newest first. -/
def scan (f : Filter) (ring : List LoggedEvent) : List LoggedEvent := (ring.reverse.filter f.matches).take f.limit

/-- The query goes through an index and asks it for id 0. -/
def Filter.AsksForZero (f : Filter) : Prop := f.memoryId = some 0 ∨ f.memoryId = none ∧ f.traceId = some 0

instance (f : Filter) : Decidable f.AsksForZero := inferInstanceAs (Decidable (_ ∨ _))

theorem collect_eq (f : Filter) : ∀ (es out : List LoggedEvent), out.length < max f.limit 1 →
    collect f out es = out ++ (es.filter f.matches).take (max f.limit 1 - out.length)
  | [], out, _ => by simp [collect]
  | e :: es, out, h => by
    unfold collect
    by_cases hm : f.matches e = true
    · by_cases hl : f.limit ≤ out.length + 1
      · have hone : max f.limit 1 - out.length = 1 := by omega
        simp [hm, hl, hone]
      · obtain ⟨k, hk⟩ : ∃ k, max f.limit 1 - out.length = k + 1 := ⟨max f.limit 1 - out.length - 1, by omega⟩
        have ih := collect_eq f es (out ++ [e]) (by simp; omega)
        have hrest : max f.limit 1 - (out.length + 1) = k := by omega
        simp [hm, hl, ih, hk, hrest]
    · simp [hm, collect_eq f es out h]

/-- The loop takes the first events that match, at least one. -/
theorem collect_nil (f : Filter) (es : List LoggedEvent) :
    collect f [] es = (es.filter f.matches).take (max f.limit 1) := by
  simpa using collect_eq f es [] (by simp)

theorem matches_memoryId {f : Filter} {e : LoggedEvent} {m : UInt64} (hf : f.memoryId = some m)
    (h : f.matches e = true) : e.memoryId = m := by
  simp only [Filter.matches, hf, Bool.and_eq_true] at h
  simpa using h.1.1.1.1.1.1

theorem matches_traceId {f : Filter} {e : LoggedEvent} {t : UInt64} (hf : f.traceId = some t)
    (h : f.matches e = true) : e.traceId = t := by
  simp only [Filter.matches, hf, Bool.and_eq_true] at h
  simpa using h.1.1.1.1.1.2

/-- Through an index: what the filter lets through, if it implies the key and
the key is not 0. -/
theorem collectFrom_eq {l : EventLog} {f : Filter} {id : LoggedEvent → UInt64} {k : UInt64}
    {idx : List (UInt64 × ℕ)} (hidx : idx = PositionIndex.entries (fun e => nonzero (id e)) l.recent)
    (hid : ∀ e, f.matches e = true → id e = k) :
    l.collectFrom f idx k = if k = 0 then [] else (l.recent.reverse.filter f.matches).take (max f.limit 1) := by
  rw [collectFrom, hidx, PositionIndex.filterMap_lookup, collect_nil, ← List.filter_reverse, List.filter_filter]
  split
  · next hk =>
    have hnone : ∀ e, nonzero (id e) ≠ some k := by
      intro e
      unfold nonzero
      split <;> simp_all
    simp [hnone]
  · next hk =>
    congr 2
    funext e
    by_cases hm : f.matches e = true
    · simp [hm, hid e hm, nonzero, hk]
    · simp [hm]

/-- **What a query returns.** Nothing, if it goes through an index with id 0;
else the first events the filter lets through, newest first, at least one. -/
theorem query_eq {l : EventLog} (h : l.Indexed) (f : Filter) :
    l.query f = if f.AsksForZero then [] else (l.recent.reverse.filter f.matches).take (max f.limit 1) := by
  unfold query
  match hm : f.memoryId, ht : f.traceId with
  | some m, _ =>
    have hz : f.AsksForZero ↔ m = 0 := by simp [Filter.AsksForZero, hm]
    simp only [hz]
    exact collectFrom_eq h.byMemoryId fun e => matches_memoryId hm
  | none, some t =>
    have hz : f.AsksForZero ↔ t = 0 := by simp [Filter.AsksForZero, hm, ht]
    simp only [hz]
    exact collectFrom_eq h.byTraceId fun e => matches_traceId ht
  | none, none =>
    have hz : ¬ f.AsksForZero := by simp [Filter.AsksForZero, hm, ht]
    rw [if_neg hz]
    exact collect_nil f _

/-- When a query is a scan: no event in the ring meets the conditions, or the
limit is 0 exactly if the query asks an index for id 0. -/
def Filter.Scans (f : Filter) (ring : List LoggedEvent) : Prop :=
  (∃ e ∈ ring, f.matches e = true) → (f.limit = 0 ↔ f.AsksForZero)

/-- **When a query is a scan of the ring.** After any history. -/
theorem query_eq_scan_iff {F D : Type} (nf : Numbers F D) (os : List Op) (f : Filter) :
    (Run.run (step ringCapacity nf) {} os).query f = scan f (Run.run (step ringCapacity nf) {} os).recent ↔
      f.Scans (Run.run (step ringCapacity nf) {} os).recent := by
  have hindexed := indexed_run ringCapacity nf os
  generalize Run.run (step ringCapacity nf) {} os = l at hindexed
  rw [query_eq hindexed, scan, Filter.Scans]
  by_cases hhit : ∃ e ∈ l.recent, f.matches e = true
  · obtain ⟨e, he, hm⟩ := hhit
    have hpos : 0 < (l.recent.reverse.filter f.matches).length :=
      List.length_pos_of_mem (List.mem_filter.mpr ⟨List.mem_reverse.mpr he, hm⟩)
    generalize l.recent.reverse.filter f.matches = hits at hpos
    have himp : ((∃ e ∈ l.recent, f.matches e = true) → (f.limit = 0 ↔ f.AsksForZero)) ↔
        (f.limit = 0 ↔ f.AsksForZero) := ⟨fun h => h ⟨e, he, hm⟩, fun h _ => h⟩
    rw [himp]
    by_cases hz : f.AsksForZero
    · cases hits with
      | nil => cases hpos
      | cons x xs => cases hl : f.limit <;> simp [hz]
    · cases hits with
      | nil => cases hpos
      | cons x xs => cases hl : f.limit <;> simp [hz]
  · have hnil : l.recent.reverse.filter f.matches = [] := by
      rw [List.filter_eq_nil_iff]
      exact fun e he hm => hhit ⟨e, List.mem_reverse.mp he, hm⟩
    simp [hnil, hhit]

/-- Two events: one of a memory, one of none. -/
def twoEvents : List Op :=
  [.append { memoryId := 5 } 1 10 true, .append { memoryId := 0 } 2 20 true]

/-- Of two events, a limit of 0 gives one, and asking for those of no memory
gives none. -/
theorem twoEvents_differ :
    ¬ (∀ (ringCapacity : ℕ) (os : List Op) (f : Filter),
      (Run.run (step ringCapacity Numbers.whole) {} os).query f =
        scan f (Run.run (step ringCapacity Numbers.whole) {} os).recent) ∧
    ((Run.run (step 2000 Numbers.whole) {} twoEvents).query { limit := 0 }).length = 1 ∧
    (scan { limit := 0 } (Run.run (step 2000 Numbers.whole) {} twoEvents).recent).length = 0 ∧
    ((Run.run (step 2000 Numbers.whole) {} twoEvents).query { memoryId := some 0 }).length = 0 ∧
    (scan { memoryId := some 0 } (Run.run (step 2000 Numbers.whole) {} twoEvents).recent).length = 1 := by
  refine ⟨fun h => ?_, by decide, by decide, by decide, by decide⟩
  have hzero := congrArg List.length (h 2000 twoEvents { limit := 0 })
  exact absurd hzero (by decide)

end EventLog
end Observability
end Amind
