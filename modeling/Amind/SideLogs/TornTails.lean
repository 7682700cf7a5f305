/-
# A record cut short at the end of a side log

The logs of the graph, of the lineage index and of the sessions are opened to be
appended to, whatever stands at their end. A replay stops at a frame that is cut,
or passes over a line that is, and leaves its bytes in the log. The records that
are appended next then stand behind bytes that belong to none: a replay of the
frames stops at them for good, and of the lines the first is lost.

`torn_tail_iff` says exactly when nothing is lost: no byte is left of the cut
record, or nothing is appended behind it, or the bytes fall together as if they
had been written for this.
-/
import Amind.Graph.Wal
import Amind.Lib.JsonIndent
import Amind.Lineage.Wal
import Amind.Sessions.Wal

namespace Amind
namespace SideLogs

open Amind.Core ByteReader Journal Json

/-- What is delivered is what was written: the records before the cut one, those
behind it, and the cut one if it is still whole. -/
def Delivers {α : Type} (delivered before : List α) (cut : α) (after : List α) : Prop :=
  delivered = before ++ after ∨ delivered = before ++ cut :: after

instance {α : Type} [DecidableEq α] (delivered before : List α) (cut : α) (after : List α) :
    Decidable (Delivers delivered before cut after) :=
  inferInstanceAs (Decidable (_ ∨ _))

/-- The torn bytes and the records behind them start with these records again, and
no record follows. -/
def Realigned {α : Type} (r : Reader α) (enc : α → Bytes) (torn : Bytes) (after : List α) : Prop :=
  ∃ rest, torn ++ after.flatMap enc = after.flatMap enc ++ rest ∧ r rest = none

section Framed

variable {α : Type} {r : Reader α} {enc : α → Bytes} {Ok : α → Prop}

/-- A log of frames. -/
theorem delivers_all_iff (h : Frames r enc Ok) {before after : List α} {cut : α} (hb : ∀ a ∈ before, Ok a)
    (hc : Ok cut) (ha : ∀ a ∈ after, Ok a) {k : ℕ} (hk : k < (enc cut).length) :
    Delivers (all r (before.flatMap enc ++ ((enc cut).take k ++ after.flatMap enc))) before cut after ↔
      k = 0 ∨ after = [] ∨ Realigned r enc ((enc cut).take k) after := by
  have hreads : ∀ {as : List α}, (∀ a ∈ as, Ok a) → ∀ a ∈ as, Reads r (enc a) a := fun has a h' => h.reads (has a h')
  have hafter : all r ((enc cut).take k ++ after.flatMap enc) = after ↔ Realigned r enc ((enc cut).take k) after :=
    h.advances.all_eq_iff h.exact (hreads ha)
  have hcut : all r ((enc cut).take k ++ after.flatMap enc) ≠ cut :: after := by
    intro hall
    have hok : ∀ a ∈ cut :: after, Ok a := List.forall_mem_cons.mpr ⟨hc, ha⟩
    obtain ⟨rest, hbytes, -⟩ := (h.advances.all_eq_iff h.exact (hreads hok)).mp hall
    have hlen := congrArg List.length hbytes
    simp only [List.flatMap_cons, List.length_append, List.length_take] at hlen
    omega
  rw [h.advances.all_append _ (hreads hb), Delivers, List.append_cancel_left_eq, List.append_cancel_left_eq]
  constructor
  · intro hd
    exact Or.inr (Or.inr (hafter.mp (hd.resolve_right hcut)))
  · rintro (rfl | rfl | hre)
    · exact Or.inl (hafter.mpr ⟨[], by simp, h.read_nil⟩)
    · exact Or.inl (hafter.mpr ⟨(enc cut).take k, by simp, h.read_take hc hk⟩)
    · exact Or.inl (hafter.mpr hre)

end Framed

section Lines

variable {D : Type} (fl : Library D)

/-- The torn bytes and the object behind them have the checksum of the object
alone, and are read as it. -/
def Merges (torn : Bytes) (r : Sessions.WalRecord) : Prop :=
  crc32 (fl.dump (r.toJson : Json D)) = crc32 (torn ++ fl.dump r.toJson) ∧
    fl.parse (torn ++ fl.dump r.toJson) = some (r.toJson : Json D)

variable {fl}

/-- The first event behind a cut line is on that line. -/
theorem entries_merged (hfl : fl.Lawful) {torn : Bytes} (hne : torn ≠ []) (hline : 0x0A ∉ torn) (r : Sessions.WalRecord)
    (rs : List Sessions.WalRecord) : Sessions.entries fl (torn ++ (r :: rs).flatMap (Sessions.line fl)) =
      (if crc32 (fl.dump (r.toJson : Json D)) = crc32 (torn ++ fl.dump r.toJson)
        then fl.parse (torn ++ fl.dump r.toJson) else none).toList ++ rs.map Sessions.WalRecord.toJson := by
  have hbytes : torn ++ (r :: rs).flatMap (Sessions.line fl) = (torn ++ Sessions.checked (fl.dump r.toJson)) ++
      0x0A :: (rs.flatMap (Sessions.line fl) ++ []) := by
    simp [Sessions.line]
  have hnot : 0x0A ∉ torn ++ Sessions.checked (fl.dump r.toJson) := fun h =>
    (List.mem_append.mp h).elim hline (Sessions.not_mem_checked hfl r)
  rw [hbytes, Sessions.entries_cons hnot, Sessions.entries_append hfl, Sessions.entries_nil, List.append_nil,
    Sessions.checked, ← List.append_assoc, Sessions.readLine_merged hne]

/-- One entry at most stands before the others. -/
theorem toList_delivers_iff {α : Type} {o : Option α} {as : List α} {a b : α} :
    (o.toList ++ as = a :: as ∨ o.toList ++ as = b :: a :: as) ↔ o = some a := by
  have hlen : ∀ c : α, o.toList ++ as ≠ b :: c :: as := by
    intro c h
    have hl := congrArg List.length h
    cases o with
    | none =>
      simp only [Option.toList_none, List.nil_append, List.length_cons] at hl
      omega
    | some d => simp at hl
  constructor
  · intro h
    have heq := h.resolve_right (hlen a)
    cases o with
    | none =>
      have hl := congrArg List.length heq
      simp at hl
    | some c => exact congrArg some (List.cons.inj heq).1
  · rintro rfl
    exact Or.inl rfl

/-- The log of the sessions. -/
theorem delivers_entries_iff (hfl : fl.Lawful) (before after : List Sessions.WalRecord)
    (cut : Sessions.WalRecord) {k : ℕ}
    (hk : k < (Sessions.line fl cut).length) :
    Delivers (Sessions.entries fl (before.flatMap (Sessions.line fl) ++
        ((Sessions.line fl cut).take k ++ after.flatMap (Sessions.line fl))))
        (before.map Sessions.WalRecord.toJson) cut.toJson (after.map Sessions.WalRecord.toJson) ↔
      k = 0 ∨ after = [] ∨ ∃ r ∈ after.head?, Merges fl ((Sessions.line fl cut).take k) r := by
  obtain ⟨hline, hread⟩ := Sessions.readLine_take hfl cut hk
  rw [Sessions.entries_append hfl, Delivers, List.append_cancel_left_eq, List.append_cancel_left_eq]
  rcases after with _ | ⟨r, rs⟩
  · -- nothing is appended: the cut line is the last
    refine iff_of_true ?_ (Or.inr (Or.inl rfl))
    rw [List.flatMap_nil, List.append_nil, Sessions.entries_last hline]
    exact hread.imp (fun h => by rw [h]; rfl) fun h => by rw [h]; rfl
  · by_cases hzero : k = 0
    · refine iff_of_true (Or.inl ?_) (Or.inl hzero)
      have hall := Sessions.entries_append hfl [] (r :: rs)
      rw [List.append_nil, Sessions.entries_nil, List.append_nil] at hall
      rw [hzero, List.take_zero, List.nil_append, hall]
    · have hne : (Sessions.line fl cut).take k ≠ [] := by
        intro h
        rcases List.take_eq_nil_iff.mp h with h | h
        · exact hzero h
        · rw [h] at hk
          exact absurd hk (Nat.not_lt_zero _)
      rw [entries_merged hfl hne hline, List.map_cons, toList_delivers_iff]
      simp only [hzero, false_or, reduceCtorEq, List.head?_cons, Option.mem_some_iff, exists_eq_left', Merges]
      split
      · rename_i hcrc
        exact ⟨fun h => ⟨hcrc, h⟩, fun h => h.2⟩
      · rename_i hcrc
        exact ⟨fun h => absurd h (by simp), fun h => absurd h.1 hcrc⟩

end Lines

/-- **A log with a torn record at its end, opened again and appended to, is
replayed as all that was written, if and only if no byte of the torn record is
left, or nothing is appended, or the bytes fall together.** For the logs of the
graph, of the lineage index (whose entries have fewer than 65536 parents) and of
the sessions. -/
theorem torn_tail_iff {D : Type} {fl : Library D} (hfl : fl.Lawful) :
    (∀ (before after : List Graph.WalRecord) (cut : Graph.WalRecord), ∀ k < cut.encode.length,
      (Delivers (Graph.replay (before.flatMap Graph.WalRecord.encode ++
          (cut.encode.take k ++ after.flatMap Graph.WalRecord.encode))) before cut after ↔
        k = 0 ∨ after = [] ∨ Realigned Graph.WalRecord.read Graph.WalRecord.encode (cut.encode.take k) after)) ∧
    (∀ (before after : List Lineage.WalEntry) (cut : Lineage.WalEntry), (∀ e ∈ before, e.Fits) → cut.Fits →
      (∀ e ∈ after, e.Fits) → ∀ k < cut.encode.length,
      (Delivers (Lineage.replay (before.flatMap Lineage.WalEntry.encode ++
          (cut.encode.take k ++ after.flatMap Lineage.WalEntry.encode))) before cut after ↔
        k = 0 ∨ after = [] ∨ Realigned Lineage.WalEntry.read Lineage.WalEntry.encode (cut.encode.take k) after)) ∧
    ∀ (before after : List Sessions.WalRecord) (cut : Sessions.WalRecord), ∀ k < (Sessions.line fl cut).length,
      (Delivers (Sessions.entries fl (before.flatMap (Sessions.line fl) ++
          ((Sessions.line fl cut).take k ++ after.flatMap (Sessions.line fl))))
          (before.map Sessions.WalRecord.toJson) cut.toJson (after.map Sessions.WalRecord.toJson) ↔
        k = 0 ∨ after = [] ∨ ∃ r ∈ after.head?, Merges fl ((Sessions.line fl cut).take k) r) :=
  ⟨fun _ _ _ _ hk =>
      delivers_all_iff Graph.WalRecord.frames_read (fun _ _ => trivial) trivial (fun _ _ => trivial) hk,
    fun _ _ _ hb hc ha _ hk => delivers_all_iff Lineage.WalEntry.frames_read hb hc ha hk,
    fun before after cut _ hk => delivers_entries_iff hfl before after cut hk⟩

def edge (dst : UInt64) : Graph.WalRecord := ⟨Graph.WalRecord.addEdge, 1, dst, 0, 7, 10⟩

def derived (child : UInt64) : Lineage.WalEntry := ⟨Lineage.WalEntry.recordLineage, child, 3, [4], 10⟩

def closing (id : UInt64) : Sessions.WalRecord := .close id

-- the last record is cut and the log only read, or nothing is left of it and one
-- record appended
theorem delivers_unless_appended :
    (Delivers (Graph.replay ([edge 2].flatMap Graph.WalRecord.encode ++
      ((edge 3).encode.take 5 ++ []))) [edge 2] (edge 3)
        [] ∧
      Delivers (Graph.replay ([edge 2].flatMap Graph.WalRecord.encode ++
        ((edge 3).encode.take 0 ++ [edge 4].flatMap Graph.WalRecord.encode))) [edge 2] (edge 3) [edge 4]) ∧
    (Delivers (Lineage.replay ([derived 5].flatMap Lineage.WalEntry.encode ++ ((derived 6).encode.take 5 ++ [])))
        [derived 5] (derived 6) [] ∧
      Delivers (Lineage.replay ([derived 5].flatMap Lineage.WalEntry.encode ++
        ((derived 6).encode.take 0 ++ [derived 7].flatMap Lineage.WalEntry.encode))) [derived 5] (derived 6) [derived 7]) ∧
    (Delivers (Sessions.entries integers ([closing 1].flatMap (Sessions.line integers) ++
        ((Sessions.line integers (closing 2)).take 5 ++ []))) [(closing 1).toJson] (closing 2).toJson [] ∧
      Delivers (Sessions.entries integers ([closing 1].flatMap (Sessions.line integers) ++
        ((Sessions.line integers (closing 2)).take 0 ++ [closing 3].flatMap (Sessions.line integers))))
        [(closing 1).toJson] (closing 2).toJson [(closing 3).toJson]) := by
  have h := torn_tail_iff lawful_integers
  have hlower : 0 < (Sessions.line integers (closing 2)).length := by decide +kernel
  refine ⟨⟨?_, ?_⟩, ⟨?_, ?_⟩, ?_, ?_⟩
  · exact (h.1 [edge 2] [] (edge 3) 5 (by decide)).mpr (.inr (.inl rfl))
  · exact (h.1 [edge 2] [edge 4] (edge 3) 0 (by decide)).mpr (.inl rfl)
  · exact (h.2.1 [derived 5] [] (derived 6) (by decide) (by decide) (by decide) 5 (by decide)).mpr (.inr (.inl rfl))
  · exact (h.2.1 [derived 5] [derived 7] (derived 6) (by decide) (by decide) (by decide) 0 (by decide)).mpr (.inl rfl)
  · exact (h.2.2 [closing 1] [] (closing 2) 5 (by decide +kernel)).mpr (.inr (.inl rfl))
  · exact (h.2.2 [closing 1] [closing 3] (closing 2) 0 hlower).mpr (.inl rfl)

-- the last record is cut after five bytes, and one record appended
theorem appended_lost :
    ¬ Delivers (Graph.replay ([edge 2].flatMap Graph.WalRecord.encode ++
      ((edge 3).encode.take 5 ++ [edge 4].flatMap Graph.WalRecord.encode))) [edge 2] (edge 3) [edge 4] ∧
    ¬ Delivers (Lineage.replay ([derived 5].flatMap Lineage.WalEntry.encode ++
      ((derived 6).encode.take 5 ++ [derived 7].flatMap Lineage.WalEntry.encode))) [derived 5] (derived 6) [derived 7] ∧
    ¬ Delivers (Sessions.entries integers ([closing 1].flatMap (Sessions.line integers) ++
      ((Sessions.line integers (closing 2)).take 5 ++ [closing 3].flatMap (Sessions.line integers))))
      [(closing 1).toJson] (closing 2).toJson [(closing 3).toJson] := by
  refine ⟨by decide +kernel, by decide +kernel, fun h => ?_⟩
  have hlen : (Sessions.entries integers ([closing 1].flatMap (Sessions.line integers) ++
      ((Sessions.line integers (closing 2)).take 5 ++ [closing 3].flatMap (Sessions.line integers)))).length = 1 := by
    decide +kernel
  rcases h with h | h <;> rw [h] at hlen <;> cases hlen

end SideLogs
end Amind
