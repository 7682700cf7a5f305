/-
# The log files of the storage layer

An entry of the log is its length, its type, its payload and a checksum of all
three. The log appends to one file; when it is rotated the file is renamed to an
archive with the next number, and a new file is started. The number is counted
by the object, from 0, so each life of the process counts from the start again.

An entry is written with one call of the system. One that is longer than a call takes
makes the append throw, with what was taken left in the file.
-/
import Amind.Lib.ByteReader

namespace Amind
namespace Storage

open ByteReader LittleEndian

abbrev Bytes := List UInt8

/-- What one call of the system reads or writes at most. -/
def MAX_RW_COUNT : ℕ := 0x7FFFF000

/-! ### Entries -/

structure WalEntry where
  type : UInt8
  payload : Bytes
  deriving DecidableEq, Repr

namespace WalEntry

/-- Insert or update a record. -/
def Put : UInt8 := 1

/-- Delete a record by its id. -/
def Delete : UInt8 := 2

def diskSize (e : WalEntry) : ℕ := 4 + 1 + e.payload.length + 4

variable (crc : Bytes → UInt32)

/-- The part the checksum is of: the length, the type and the payload. -/
def crcRegion (e : WalEntry) : Bytes := toLE 4 (1 + e.payload.length) ++ e.type :: e.payload

def encode (e : WalEntry) : Bytes := e.crcRegion ++ toLE 4 (crc e.crcRegion).toNat

/-- The next entry, if it is whole and its checksum is right. -/
def read : Reader WalEntry := do
  let length ← number 4
  let body ← bytes length
  let stored ← number 4
  match body with
  | [] => failure
  | type :: payload => if (crc (toLE 4 length ++ body)).toNat = stored then pure ⟨type, payload⟩ else failure

/-- The length field holds the length. -/
def Fits (e : WalEntry) : Prop := 1 + e.payload.length < 256 ^ 4

theorem length_encode (e : WalEntry) : (e.encode crc).length = e.diskSize := by
  simp [encode, crcRegion, diskSize]
  omega

theorem fits_of_diskSize {e : WalEntry} (h : e.diskSize ≤ MAX_RW_COUNT) : e.Fits := by
  unfold diskSize MAX_RW_COUNT at h
  unfold Fits
  omega

theorem reads_read {e : WalEntry} (h : e.Fits) : Reads (read crc) (e.encode crc) e := by
  have hlength : Reads (number 4) (toLE 4 (1 + e.payload.length)) (1 + e.payload.length) := reads_number h
  have hbody : Reads (bytes (1 + e.payload.length)) (e.type :: e.payload) (e.type :: e.payload) :=
    reads_bytes (by simp [Nat.add_comm])
  have hcrc : Reads (number 4) (toLE 4 (crc e.crcRegion).toNat) (crc e.crcRegion).toNat :=
    reads_number (crc e.crcRegion).toNat_lt
  have henc : e.encode crc = toLE 4 (1 + e.payload.length) ++ ((e.type :: e.payload) ++
      (toLE 4 (crc e.crcRegion).toNat ++ [])) := by
    simp [encode, crcRegion]
  rw [henc]
  refine hlength.bind (hbody.bind (hcrc.bind ?_))
  have hregion : toLE 4 (1 + e.payload.length) ++ e.type :: e.payload = e.crcRegion := rfl
  dsimp only
  rw [hregion, if_pos rfl]
  exact Reads.pure e

/-- Only encodings of entries that fit are read. -/
theorem of_read {bs rest : Bytes} {e : WalEntry} (h : read crc bs = some (e, rest)) :
    e.Fits ∧ bs = e.encode crc ++ rest := by
  obtain ⟨⟨length, bs1⟩, hlength, h⟩ := Option.bind_eq_some_iff.mp h
  obtain ⟨⟨body, bs2⟩, hbody, h⟩ := Option.bind_eq_some_iff.mp h
  obtain ⟨⟨stored, bs3⟩, hcrc, h⟩ := Option.bind_eq_some_iff.mp h
  dsimp only at h hlength hbody hcrc
  cases body with
  | nil => cases h
  | cons type payload =>
    dsimp only at h
    split at h
    · rename_i heq
      obtain ⟨rfl, rfl⟩ := Prod.mk.inj (Option.some.inj h)
      obtain ⟨hlt, rfl⟩ := number_eq_some hlength
      obtain ⟨hlen, rfl⟩ := bytes_eq_some hbody
      obtain ⟨_, rfl⟩ := number_eq_some hcrc
      have hsize : length = 1 + payload.length := by rw [← hlen, List.length_cons, Nat.add_comm]
      subst hsize
      refine ⟨hlt, ?_⟩
      rw [← heq]
      simp [encode, crcRegion]
    · cases h

theorem frames_read : Frames (read crc) (encode crc) Fits where
  reads := reads_read crc
  ok := of_read crc
  pos e := by rw [length_encode]; unfold diskSize; omega

end WalEntry

/-- The entries of a file, up to the first that is cut or damaged. -/
def entries (crc : Bytes → UInt32) (file : Bytes) : List WalEntry := all (WalEntry.read crc) file

/-- A file of whole entries. -/
def Whole (crc : Bytes → UInt32) (file : Bytes) : Prop :=
  ∃ es : List WalEntry, (∀ e ∈ es, e.Fits) ∧ file = es.flatMap (WalEntry.encode crc)

theorem whole_nil (crc : Bytes → UInt32) : Whole crc [] := ⟨[], nofun, rfl⟩

/-- An entry appended to whole entries is read after them. -/
theorem Whole.append {crc : Bytes → UInt32} {file : Bytes} (h : Whole crc file) {e : WalEntry} (he : e.Fits) :
    Whole crc (file ++ e.encode crc) ∧ entries crc (file ++ e.encode crc) = entries crc file ++ [e] := by
  obtain ⟨es, hes, rfl⟩ := h
  have hes' : ∀ x ∈ es ++ [e], x.Fits := by
    intro x hx
    rcases List.mem_append.mp hx with hx | hx
    · exact hes x hx
    · rwa [List.mem_singleton.mp hx]
  have hread : ∀ l : List WalEntry, (∀ x ∈ l, x.Fits) → entries crc (l.flatMap (WalEntry.encode crc)) = l := by
    intro l hl
    have happ := (WalEntry.frames_read crc).advances.all_append [] fun x hx => WalEntry.reads_read crc (hl x hx)
    rwa [List.append_nil, show all (WalEntry.read crc) [] = [] from rfl, List.append_nil] at happ
  have hflat : es.flatMap (WalEntry.encode crc) ++ e.encode crc = (es ++ [e]).flatMap (WalEntry.encode crc) := by simp
  rw [hflat, hread _ hes', hread _ hes]
  exact ⟨⟨es ++ [e], hes', rfl⟩, rfl⟩

/-- Nothing is read of an entry that a call took in part. -/
theorem entries_take {crc : Bytes → UInt32} {e : WalEntry} (he : e.Fits) (hlong : MAX_RW_COUNT < e.diskSize) :
    entries crc ((e.encode crc).take MAX_RW_COUNT) = [] := by
  have hcut : MAX_RW_COUNT < (e.encode crc).length := by rwa [WalEntry.length_encode]
  exact all_of_none ((WalEntry.frames_read crc).read_take he hcut)

/-! ### The log -/

/-- The files on disk: the archives by the number in their name, in the order
the directory lists them, and the file that is written. -/
structure WalFiles where
  archived : List (ℕ × Bytes) := []
  active : Option Bytes := none

/-- The files, and the rotation counter of the object that has them open. -/
structure WriteAheadLog where
  files : WalFiles := {}
  rotationSeq : Option ℕ := none

namespace WriteAheadLog

/-- An object is constructed: the file is opened, or created. -/
def construct (w : WriteAheadLog) : WriteAheadLog where
  files := { w.files with active := some (w.files.active.getD []) }
  rotationSeq := some 0

/-- Write an entry, with `strerror` of what errno is then. -/
def appendEntry (crc : Bytes → UInt32) (strerror : String) (w : WriteAheadLog) (e : WalEntry) :
    Except String Unit × WriteAheadLog :=
  let buffer := e.encode crc
  let written := buffer.take MAX_RW_COUNT
  let w := { w with files := { w.files with active := some (w.files.active.getD [] ++ written) } }
  if written.length ≠ buffer.length then (.error ("WAL write failed: " ++ strerror), w) else (.ok (), w)

/-- The file becomes the archive with the next number, in place of one that has
it already. -/
def rotate (w : WriteAheadLog) (rotationSeq : ℕ) : WriteAheadLog where
  files :=
    { archived := w.files.archived.filter (fun f => f.1 ≠ rotationSeq + 1) ++
        [(rotationSeq + 1, w.files.active.getD [])]
      active := some [] }
  rotationSeq := some (rotationSeq + 1)

def close (w : WriteAheadLog) : WriteAheadLog := { w with rotationSeq := none }

variable (crc : Bytes → UInt32) (strerror : String) (w : WriteAheadLog)

/-- What was taken is in the file, whether or not it throws. -/
theorem appendEntry_files (e : WalEntry) : (w.appendEntry crc strerror e).2.files =
    { w.files with active := some (w.files.active.getD [] ++ (e.encode crc).take MAX_RW_COUNT) } := by
  unfold appendEntry
  dsimp only
  split <;> rfl

/-- It returns if one call takes the entry. -/
theorem appendEntry_isOk {e : WalEntry} : (w.appendEntry crc strerror e).1.isOk = true ↔ e.diskSize ≤ MAX_RW_COUNT := by
  have hlen : ((e.encode crc).take MAX_RW_COUNT).length ≠ (e.encode crc).length ↔ ¬ e.diskSize ≤ MAX_RW_COUNT := by
    rw [List.length_take, WalEntry.length_encode]
    omega
  unfold appendEntry
  dsimp only
  rw [if_congr hlen rfl rfl]
  by_cases h : e.diskSize ≤ MAX_RW_COUNT
  · rw [if_neg (not_not.mpr h)]
    exact iff_of_true rfl h
  · rw [if_pos h]
    exact iff_of_false Bool.false_ne_true h

end WriteAheadLog
end Storage
end Amind
