/-
# A snapshot with a log on top

A directory with a snapshot of a map and a log of the changes since. A
checkpoint writes the new snapshot beside the old one, removes the old one,
gives the new one its name and cuts the log. A reader of the directory starts
from the snapshot and applies the patches of the log.

`crash_iff` says after which file operations a crash is harmless, with no
assumption on the log: a log replayed over the snapshot that has it already
changes nothing, but between the removal and the renaming there is no snapshot
to replay it on.
-/
import Amind.Lib.Patch

namespace Amind
namespace Journal

open Patch

abbrev Bytes := List UInt8

/-- The files: the snapshot, its log, and a snapshot not yet in place. -/
structure Dir where
  snapshot : Option Bytes := none
  wal : Bytes := []
  tmp : Option Bytes := none
  deriving DecidableEq, Repr

inductive FileOp
  | writeTmp (bs : Bytes)
  | removeSnapshot
  | renameTmp
  | truncateWal
  deriving DecidableEq, Repr

namespace Dir

/-- One file operation. -/
def perform (d : Dir) : FileOp → Dir
  | .writeTmp bs => { d with tmp := some bs }
  | .removeSnapshot => { d with snapshot := none }
  | .renameTmp => { d with snapshot := d.tmp, tmp := none }
  | .truncateWal => { d with wal := [] }

/-- The operations of a checkpoint that writes the snapshot `bs`. -/
def checkpointOps (d : Dir) (bs : Bytes) : List FileOp :=
  .writeTmp bs :: ((if d.snapshot.isSome then [.removeSnapshot] else []) ++ [.renameTmp, .truncateWal])

/-- The directory a crash after `n` operations of the checkpoint leaves. -/
def crash (d : Dir) (bs : Bytes) (n : ℕ) : Dir := ((d.checkpointOps bs).take n).foldl perform d

/-- The directory after the checkpoint. -/
def checkpoint (d : Dir) (bs : Bytes) : Dir := (d.checkpointOps bs).foldl perform d

/-- Bytes written at the end of the log. -/
def append (d : Dir) (bs : Bytes) : Dir := { d with wal := d.wal ++ bs }

theorem checkpoint_eq (d : Dir) (bs : Bytes) : d.checkpoint bs = ⟨some bs, [], none⟩ := by
  obtain ⟨snapshot, wal, tmp⟩ := d
  cases snapshot <;> rfl

/-- A crash after the last operation. -/
theorem crash_of_length_le {d : Dir} {bs : Bytes} {n : ℕ} (h : (d.checkpointOps bs).length ≤ n) :
    d.crash bs n = d.checkpoint bs := by
  rw [crash, List.take_of_length_le h, checkpoint]

end Dir

/-- How a directory is read. -/
structure Reading (K V : Type) where
  /-- What a snapshot holds, or what there is without one. -/
  base : Option Bytes → K → V
  patches : Bytes → List (Patch K V)
  patches_nil : patches [] = []

namespace Reading

variable {K V : Type} (R : Reading K V)

/-- The map a directory is recovered to. -/
def view (d : Dir) : K → V := applyAll (R.patches d.wal) (R.base d.snapshot)

variable {R}

/-- A checkpoint of what the directory holds keeps it. -/
theorem view_checkpoint {d : Dir} {bs : Bytes} (hbs : R.base (some bs) = R.view d) :
    R.view (d.checkpoint bs) = R.view d := by
  rw [Dir.checkpoint_eq, ← hbs, view, R.patches_nil]
  rfl

/-- The new snapshot is in place and the log is still there. -/
theorem view_replayed {d : Dir} {bs : Bytes} {tmp : Option Bytes} (hbs : R.base (some bs) = R.view d) :
    R.view ⟨some bs, d.wal, tmp⟩ = R.view d := by
  show applyAll (R.patches d.wal) (R.base (some bs)) = R.view d
  rw [hbs]
  exact applyAll_applyAll _ _

/-- The snapshot holds nothing that the log does not write. -/
def Covered (R : Reading K V) (d : Dir) : Prop :=
  ∀ k, Touched (R.patches d.wal) k ∨ R.base none k = R.base d.snapshot k

/-- **A crash in a checkpoint loses nothing unless it falls between the removal
of the old snapshot and the renaming of the new one, and then if and only if the
log writes all that the old snapshot holds.** -/
theorem crash_iff {d : Dir} {bs : Bytes} (hbs : R.base (some bs) = R.view d) (n : ℕ) :
    R.view (d.crash bs n) = R.view d ↔ ¬ (d.snapshot.isSome ∧ n = 2) ∨ R.Covered d := by
  have hdone : ∀ {n : ℕ}, (d.checkpointOps bs).length ≤ n → R.view (d.crash bs n) = R.view d := by
    intro n h
    rw [Dir.crash_of_length_le h, view_checkpoint hbs]
  obtain ⟨snapshot, wal, tmp⟩ := d
  cases snapshot with
  | none =>
    have hview : R.view (Dir.crash ⟨none, wal, tmp⟩ bs n) = R.view ⟨none, wal, tmp⟩ := by
      match n with
      | 0 => rfl
      | 1 => rfl
      | 2 => exact view_replayed hbs
      | n + 3 => exact hdone (Nat.le_add_left 3 n)
    exact iff_of_true hview (Or.inl fun h => Bool.noConfusion h.1)
  | some old =>
    match n with
    | 0 => exact iff_of_true rfl (Or.inl fun h => absurd h.2 (by decide))
    | 1 => exact iff_of_true rfl (Or.inl fun h => absurd h.2 (by decide))
    | 2 =>
      have hold : R.view ⟨none, wal, some bs⟩ = R.view ⟨some old, wal, tmp⟩ ↔ R.Covered ⟨some old, wal, tmp⟩ :=
        applyAll_eq_iff
      exact hold.trans ⟨Or.inr, fun h => h.resolve_left fun hn => hn ⟨rfl, rfl⟩⟩
    | 3 => exact iff_of_true (view_replayed hbs) (Or.inl fun h => absurd h.2 (by decide))
    | n + 4 => exact iff_of_true (hdone (Nat.le_add_left 4 n)) (Or.inl fun h => absurd h.2 (by omega))

end Reading
end Journal
end Amind
