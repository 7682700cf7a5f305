/-
# Histories of one lineage index

The index holds its lock over the change in memory and the entry in the log, so
its calls come one after the other. Between two calls the directory is read as
the records and the removed nodes of the index (`Synced`), as long as no record
has more parents than the 16 bits of the count can say. `crash_iff` says what a
crash in the middle of a checkpoint loses.
-/
import Amind.Lib.Run
import Amind.Lineage.Wal

namespace Amind
namespace Lineage

open Journal LineageIndex
open Run (run Along)

/-- An index and its directory. -/
structure OpenIndex where
  index : LineageIndex := {}
  dir : Dir := {}

inductive IndexOp
  | change (c : Change)
  | checkpoint (o : Orders)
  | reopen

/-- The entry writes the record or the mark. -/
def WalEntry.Writes (e : WalEntry) (k : LineageKey) : Prop :=
  e.op = recordLineage ∧ k = .record e.nodeId ∨
    e.op = removeNode ∧ (k = .record e.nodeId ∨ k = .removed e.nodeId) ∨
    e.op = markRemoved ∧ k = .removed e.nodeId

namespace OpenIndex

variable (s : OpenIndex)

/-- The snapshot file a checkpoint writes. -/
def snapshot (o : Orders) : Bytes := snapshotBytes (s.index.gatherRecords o) (o.removed s.index.removedNodes)

def step (s : OpenIndex) : IndexOp → OpenIndex
  | .change c => ⟨c.applyTo s.index, s.dir.append c.entry.encode⟩
  | .checkpoint o => ⟨s.index, s.dir.checkpoint (s.snapshot o)⟩
  | .reopen => ⟨recover s.dir, s.dir⟩

/-- Lineage is recorded with fewer parents than a count of 16 bits can say, and a
checkpoint writes fewer records and ids than one of 64 bits. -/
def Counts (s : OpenIndex) : IndexOp → Prop
  | .change c => c.entry.Fits
  | .checkpoint o => (s.index.gatherRecords o).length < 2 ^ 64 ∧ (o.removed s.index.removedNodes).length < 2 ^ 64
  | .reopen => True

instance : ∀ o, Decidable (s.Counts o)
  | .change c => inferInstanceAs (Decidable (c.entry.parents.length < 65536))
  | .checkpoint _ => inferInstanceAs (Decidable (_ ∧ _))
  | .reopen => inferInstanceAs (Decidable True)

/-- Between two calls: the log is whole, and the directory is read as the index. -/
structure Synced : Prop where
  own : s.index.Own
  fits : s.index.Fits
  whole : ∃ es : List WalEntry, (∀ e ∈ es, e.Fits) ∧ s.dir.wal = es.flatMap WalEntry.encode
  view : s.index.view = reading.view s.dir

/-- Every record and every removed node of the snapshot is written by an entry of
the log. -/
def Covered : Prop :=
  (∀ child r, (recover { s.dir with wal := [] }).childToRecord.lookup child = some r →
      ∃ e ∈ replay s.dir.wal, e.Writes (.record child)) ∧
    ∀ id ∈ (recover { s.dir with wal := [] }).removedNodes, ∃ e ∈ replay s.dir.wal, e.Writes (.removed id)

variable {s}

theorem entryPatch_ne_none {e : WalEntry} {k : LineageKey} : entryPatch e k ≠ none ↔ e.Writes k := by
  have h12 : WalEntry.recordLineage ≠ WalEntry.removeNode := by decide
  have h13 : WalEntry.recordLineage ≠ WalEntry.markRemoved := by decide
  have h23 : WalEntry.removeNode ≠ WalEntry.markRemoved := by decide
  unfold entryPatch WalEntry.Writes
  by_cases hrecord : e.op = WalEntry.recordLineage
  · rw [if_pos hrecord, storePatch, hrecord]
    by_cases hk : k = .record e.nodeId
    · simp [WalEntry.toRecord, hk]
    · simp [WalEntry.toRecord, hk, h12, h13]
  · rw [if_neg hrecord]
    by_cases hremove : e.op = WalEntry.removeNode
    · rw [if_pos hremove, removePatch, hremove]
      by_cases hk : k = .record e.nodeId
      · simp [hk]
      · by_cases hk' : k = .removed e.nodeId <;> simp [hk, hk', h12.symm, h23]
    · rw [if_neg hremove]
      by_cases hmark : e.op = WalEntry.markRemoved
      · rw [if_pos hmark, markPatch, hmark]
        by_cases hk : k = .removed e.nodeId <;> simp [hk, h13.symm, h23.symm]
      · simp [Patch.keep, hrecord, hremove, hmark]

theorem fits_of_view {x y : LineageIndex} (h : x.view = y.view) (hy : y.Fits) : x.Fits := by
  intro child r hr
  exact hy child r ((sameLineage_iff.mpr h).1 child ▸ hr)

theorem fits_change {x : LineageIndex} (h : x.Fits) {c : Change} (hc : c.entry.Fits) : (c.applyTo x).Fits := by
  intro child r hr
  cases c with
  | recordLineage child' parents op now =>
    by_cases hchild : child = child'
    · subst hchild
      rw [Change.applyTo, record, AList.lookup_insert] at hr
      exact (Option.some.inj hr) ▸ hc
    · rw [Change.applyTo, record, AList.lookup_insert_ne hchild] at hr
      exact h child r hr
  | removeNode id =>
    by_cases hchild : child = id
    · subst hchild
      rw [Change.applyTo, remove, AList.lookup_erase] at hr
      cases hr
    · rw [Change.applyTo, remove, AList.lookup_erase_ne hchild] at hr
      exact h child r hr
  | markRemoved id => exact h child r hr

theorem synced_fresh : (⟨{}, {}⟩ : OpenIndex).Synced where
  own := own_empty
  fits := fun _ _ h => by simp at h
  whole := ⟨[], by simp, rfl⟩
  view := by
    funext k
    cases k <;> rfl

theorem Synced.step (h : s.Synced) {o : IndexOp} (hc : s.Counts o) : (s.step o).Synced := by
  obtain ⟨es, hes, hwal⟩ := h.whole
  cases o with
  | change c =>
    have hnew : ∀ e ∈ es ++ [c.entry], e.Fits :=
      fun e he => (List.mem_append.mp he).elim (hes e) fun h => List.mem_singleton.mp h ▸ hc
    have hwal' : (s.dir.append c.entry.encode).wal = (es ++ [c.entry]).flatMap WalEntry.encode := by
      simp [Dir.append, hwal]
    refine ⟨?_, fits_change h.fits hc, ⟨_, hnew, hwal'⟩, ?_⟩
    · show (c.applyTo s.index).Own
      rw [applyTo_eq]
      exact h.own.replayEntry _
    · have hview := h.view
      unfold Reading.view at hview ⊢
      show (c.applyTo s.index).view = Patch.applyAll ((replay (s.dir.append _).wal).map entryPatch) _
      rw [applyTo_eq, view_replayEntry, hview, hwal', replay_encode hnew, List.map_append, List.map_singleton,
        Patch.applyAll_concat]
      show _ = (entryPatch c.entry).apply (Patch.applyAll (es.map entryPatch) _)
      rw [← replay_encode hes, ← hwal]
      rfl
  | checkpoint o =>
    have hbase := base_snapshotBytes o h.own h.fits hc.1 hc.2
    refine ⟨h.own, h.fits, ⟨[], by simp, ?_⟩, ?_⟩
    · show (s.dir.checkpoint _).wal = _
      rw [Dir.checkpoint_eq]
      rfl
    · show s.index.view = reading.view (s.dir.checkpoint _)
      rw [h.view] at hbase ⊢
      exact (Reading.view_checkpoint hbase).symm
  | reopen =>
    have hview : (recover s.dir).view = s.index.view := (view_recover _).trans h.view.symm
    exact ⟨own_recover _, fits_of_view hview h.fits, ⟨es, hes, hwal⟩, view_recover _⟩

theorem synced_run {os : List IndexOp} (hc : Along step Counts {} os) : (run step {} os).Synced :=
  Run.run_inv step (I := fun _ s => s.Synced) (fun _ _ _ h ho => h.step ho) os [] _ synced_fresh hc

/-- What the snapshot alone is read as. -/
theorem view_snapshot (d : Dir) : (recover { d with wal := [] }).view = reading.base d.snapshot := view_recover _

theorem covered_iff : s.Covered ↔ reading.Covered s.dir := by
  have hbase : reading.base s.dir.snapshot = (recover { s.dir with wal := [] }).view := (view_snapshot s.dir).symm
  have htouch : ∀ k, Patch.Touched (reading.patches s.dir.wal) k ↔ ∃ e ∈ replay s.dir.wal, e.Writes k := by
    intro k
    constructor
    · rintro ⟨p, hp, hk⟩
      obtain ⟨e, he, rfl⟩ := List.mem_map.mp hp
      exact ⟨e, he, entryPatch_ne_none.mp hk⟩
    · rintro ⟨e, he, hk⟩
      exact ⟨_, List.mem_map_of_mem he, entryPatch_ne_none.mpr hk⟩
  have hnone : ∀ k, reading.base none k = none := fun k => rfl
  constructor
  · rintro ⟨hrecords, hremoved⟩ k
    rw [htouch, hnone, hbase]
    cases k with
    | record child =>
      cases hr : (recover { s.dir with wal := [] }).childToRecord.lookup child with
      | none => exact Or.inr (by rw [view, hr]; rfl)
      | some r => exact Or.inl (hrecords child r hr)
    | removed id =>
      by_cases hid : id ∈ (recover { s.dir with wal := [] }).removedNodes
      · exact Or.inl (hremoved id hid)
      · exact Or.inr (by rw [view, if_neg hid])
  · intro h
    refine ⟨fun child r hr => (htouch _).mp ((h (.record child)).resolve_right fun hk => ?_),
      fun id hid => (htouch _).mp ((h (.removed id)).resolve_right fun hk => ?_)⟩
    · rw [hnone, hbase, view, hr] at hk
      cases hk
    · rw [hnone, hbase, view, if_pos hid] at hk
      cases hk

/-- A crash in a checkpoint after any history. -/
theorem crash_iff {os : List IndexOp} (hc : Along step Counts {} os) {o : Orders}
    (ho : Counts (run step {} os) (.checkpoint o)) (n : ℕ) :
    SameLineage (recover ((run step {} os).dir.crash ((run step {} os).snapshot o) n)) (run step {} os).index ↔
      ¬ ((run step {} os).dir.snapshot.isSome ∧ n = 2) ∨ (run step {} os).Covered := by
  have hs := synced_run hc
  have hbase := base_snapshotBytes o hs.own hs.fits ho.1 ho.2
  rw [hs.view] at hbase
  rw [sameLineage_iff, view_recover, hs.view, covered_iff]
  exact Reading.crash_iff hbase n

end OpenIndex
end Lineage
end Amind
