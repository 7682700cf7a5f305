/-
# Recovery from the log files

Recovery reads the archives in the order of their numbers, then the active file,
and applies each entry it can read. An object counts its rotations from 0, so a
rotation in a later life takes a number again: the archive that has it is
replaced, and the entries of the active file come to stand before those of the
archives with higher numbers. A file that is longer than one call reads ends the
recovery with an exception. `complete_iff` says which histories lose nothing.

Key definitions: `recover`, `History.step`, `History.Keeps`.
Key theorems: `recover_eq`, `appliedAll_rotate`, `complete_iff`.
-/
import Amind.Core.RecordCodec
import Amind.Lib.Hiding
import Amind.Lib.Run
import Amind.Storage.WalCodec

namespace Amind
namespace Storage

open Amind.Core LittleEndian

variable {F D : Type} (nf : Numbers F D) (crc : Bytes → UInt32) [Zero F]

/-- What the handlers are called with. -/
inductive Applied (F : Type)
  | put (record : MemoryRecord F)
  | delete (memoryId : UInt64)

structure RecoveryStats where
  entriesReplayed : ℕ := 0
  putsApplied : ℕ := 0
  deletesApplied : ℕ := 0
  entriesSkipped : ℕ := 0
  walFilesProcessed : ℕ := 0
  deriving DecidableEq, Repr

/-- What an entry comes to, if it is not skipped. -/
def WalEntry.apply (e : WalEntry) : Option (Applied F) :=
  if e.type = Put then
    match deserialize nf crc e.payload with
    | .ok record => some (.put record)
    | .error _ => none
  else if e.type = Delete then
    if 8 ≤ e.payload.length then some (.delete (UInt64.ofNat (field e.payload 0 8))) else none
  else none

def replayEntry (acc : List (Applied F) × RecoveryStats) (e : WalEntry) : List (Applied F) × RecoveryStats :=
  let stats := { acc.2 with entriesReplayed := acc.2.entriesReplayed + 1 }
  match e.apply nf crc with
  | some (.put record) => (acc.1 ++ [.put record], { stats with putsApplied := stats.putsApplied + 1 })
  | some (.delete id) => (acc.1 ++ [.delete id], { stats with deletesApplied := stats.deletesApplied + 1 })
  | none => (acc.1, { stats with entriesSkipped := stats.entriesSkipped + 1 })

/-- Read a file, with `strerror` of what errno is then, and apply its entries. -/
def replayWalFile (strerror : String) (acc : List (Applied F) × RecoveryStats) (walPath : String) (file : Bytes) :
    Checked String (List (Applied F) × RecoveryStats) := do
  let entries ← WalCodec.readAll crc walPath (.linux file strerror) (some file)
  pure (entries.foldl (replayEntry nf crc) acc)

/-- The archives, the lowest number first. -/
def sortArchives (archived : List (ℕ × Bytes)) : List (ℕ × Bytes) := archived.insertionSort fun a b => a.1 ≤ b.1

/-- The files in the order they are read, with their names: the archives, then the
active one if there is anything in it. -/
def walFiles (path : String) (fs : WalFiles) : List (String × Bytes) :=
  (sortArchives fs.archived).map (fun a => (path ++ ".old." ++ toString a.1, a.2)) ++
    (fs.active.toList.filter fun file => 0 < file.length).map fun file => (path, file)

/-- What recovery has done: what it has applied, and why it ended before its end. -/
structure Recovered (F : Type) where
  calls : List (Applied F) := []
  stats : RecoveryStats := {}
  thrown : Option (Checked.Fault String) := none

/-- Replay files. What a file throws ends the recovery. -/
def replayWalFiles (strerror : String) : List (String × Bytes) → List (Applied F) × RecoveryStats → Recovered F
  | [], acc => { calls := acc.1, stats := acc.2 }
  | file :: files, acc =>
    match replayWalFile nf crc strerror acc file.1 file.2 with
    | .ok acc =>
      replayWalFiles strerror files (acc.1, { acc.2 with walFilesProcessed := acc.2.walFilesProcessed + 1 })
    | .error e => { calls := acc.1, stats := acc.2, thrown := some e }

def recover (path strerror : String) (fs : WalFiles) : Recovered F :=
  replayWalFiles nf crc strerror (walFiles path fs) ([], {})

/-! ### What recovery applies -/

/-- What a file comes to. -/
def applied (file : Bytes) : List (Applied F) := (entries crc file).filterMap (WalEntry.apply nf crc)

/-- One call reads each of the files. -/
structure Readable (fs : WalFiles) : Prop where
  archived : ∀ a ∈ fs.archived, a.2.length ≤ MAX_RW_COUNT
  active : (fs.active.getD []).length ≤ MAX_RW_COUNT

/-- What the files come to: what the archives do, the lowest number first, then what
the active file does. -/
def appliedAll (fs : WalFiles) : List (Applied F) :=
  (sortArchives fs.archived).flatMap (fun a => applied nf crc a.2) ++ applied nf crc (fs.active.getD [])

theorem replayEntry_fst (acc : List (Applied F) × RecoveryStats) (e : WalEntry) :
    (replayEntry nf crc acc e).1 = acc.1 ++ (e.apply nf crc).toList := by
  unfold replayEntry
  rcases e.apply nf crc with - | - | -
  · simp
  · rfl
  · rfl

theorem foldl_replayEntry_fst : ∀ (es : List WalEntry) (acc : List (Applied F) × RecoveryStats),
    (es.foldl (replayEntry nf crc) acc).1 = acc.1 ++ es.filterMap (WalEntry.apply nf crc)
  | [], acc => by simp
  | e :: es, acc => by
    rw [List.foldl_cons, foldl_replayEntry_fst es, replayEntry_fst, List.append_assoc]
    cases h : e.apply nf crc <;> simp [h]

/-- Files that one call reads are replayed one after another. -/
theorem replayWalFiles_of_readable (strerror : String) : ∀ (files : List (String × Bytes))
    (acc : List (Applied F) × RecoveryStats), (∀ file ∈ files, file.2.length ≤ MAX_RW_COUNT) →
      (replayWalFiles nf crc strerror files acc).thrown = none ∧
        (replayWalFiles nf crc strerror files acc).calls = acc.1 ++ files.flatMap fun file => applied nf crc file.2
  | [], acc, _ => ⟨rfl, (List.append_nil acc.1).symm⟩
  | file :: files, acc, h => by
    obtain ⟨hfile, hfiles⟩ := List.forall_mem_cons.mp h
    have hread := WalCodec.readAll_linux crc file.1 strerror hfile
    rw [replayWalFiles, replayWalFile, hread, Checked.ok_bind]
    obtain ⟨hreturns, hcalls⟩ := replayWalFiles_of_readable strerror files _ hfiles
    refine ⟨hreturns, hcalls.trans ?_⟩
    rw [foldl_replayEntry_fst, List.flatMap_cons, List.append_assoc]
    rfl

/-- The first that one call does not read ends the recovery. -/
theorem replayWalFiles_thrown (strerror : String) : ∀ (files : List (String × Bytes))
    (acc : List (Applied F) × RecoveryStats), (replayWalFiles nf crc strerror files acc).thrown = none →
      ∀ file ∈ files, file.2.length ≤ MAX_RW_COUNT
  | [], _, _ => fun _ hf => absurd hf List.not_mem_nil
  | file :: files, acc, h => by
    by_cases hfile : file.2.length ≤ MAX_RW_COUNT
    · have hread := WalCodec.readAll_linux crc file.1 strerror hfile
      rw [replayWalFiles, replayWalFile, hread, Checked.ok_bind] at h
      exact List.forall_mem_cons.mpr ⟨hfile, replayWalFiles_thrown strerror files _ h⟩
    · obtain ⟨why, hread⟩ := WalCodec.readAll_linux_thrown crc file.1 strerror hfile
      rw [replayWalFiles, replayWalFile, hread, Checked.error_bind] at h
      cases h

theorem readable_iff {path : String} {fs : WalFiles} :
    Readable fs ↔ ∀ file ∈ walFiles path fs, file.2.length ≤ MAX_RW_COUNT := by
  have harchived : (∀ a ∈ fs.archived, a.2.length ≤ MAX_RW_COUNT) ↔
      ∀ a ∈ sortArchives fs.archived, a.2.length ≤ MAX_RW_COUNT :=
    forall_congr' fun a => imp_congr_left (List.perm_insertionSort _ fs.archived).mem_iff.symm
  have hactive : (fs.active.getD []).length ≤ MAX_RW_COUNT ↔
      ∀ file ∈ fs.active.toList.filter (fun file => 0 < file.length), file.length ≤ MAX_RW_COUNT := by
    cases fs.active with
    | none => exact iff_of_true (Nat.zero_le _) fun _ hf => absurd hf List.not_mem_nil
    | some file =>
      cases file with
      | nil => exact iff_of_true (Nat.zero_le _) fun _ hf => absurd hf List.not_mem_nil
      | cons b bs => simp
  unfold walFiles
  rw [List.forall_mem_append, List.forall_mem_map, List.forall_mem_map, ← harchived, ← hactive]
  exact ⟨fun h => ⟨h.archived, h.active⟩, fun h => ⟨h.1, h.2⟩⟩

/-- **Recovery** ends if one call reads each of the files, and then has applied what they
come to. -/
theorem recover_eq (path strerror : String) (fs : WalFiles) :
    ((recover nf crc path strerror fs).thrown = none ↔ Readable fs) ∧
      (Readable fs → (recover nf crc path strerror fs).calls = appliedAll nf crc fs) := by
  refine ⟨⟨fun h => ?_, fun h => ?_⟩, fun h => ?_⟩
  · exact readable_iff.mpr (replayWalFiles_thrown nf crc strerror _ _ h)
  · exact (replayWalFiles_of_readable nf crc strerror _ _ (readable_iff.mp h)).1
  · refine (replayWalFiles_of_readable nf crc strerror (walFiles path fs) ([], {}) (readable_iff.mp h)).2.trans ?_
    rw [List.nil_append, walFiles, List.flatMap_append, List.flatMap_map, List.flatMap_map, appliedAll]
    congr 1
    cases fs.active with
    | none => rfl
    | some file =>
      cases file with
      | nil => rfl
      | cons b bs => simp

/-! ### The order of the archives -/

theorem split_sorted {k : ℕ} : ∀ {l : List (ℕ × Bytes)}, l.Pairwise (fun a b => a.1 ≤ b.1) →
    l = l.filter (fun a => a.1 < k) ++ l.filter (fun a => a.1 = k) ++ l.filter (fun a => k < a.1)
  | [], _ => rfl
  | a :: l, h => by
    obtain ⟨hle, hl⟩ := List.pairwise_cons.mp h
    have ih := split_sorted (k := k) hl
    rcases Nat.lt_trichotomy a.1 k with hlt | heq | hgt
    · have hne : a.1 ≠ k := Nat.ne_of_lt hlt
      have hng : ¬ k < a.1 := by omega
      simpa [hlt, hne, hng] using ih
    · have hnone : l.filter (fun a => a.1 < k) = [] := by
        rw [List.filter_eq_nil_iff]
        intro b hb
        have := hle b hb
        simp
        omega
      rw [hnone] at ih
      simpa [heq, hnone] using ih
    · have hnone : l.filter (fun a => a.1 < k) = [] := by
        rw [List.filter_eq_nil_iff]
        intro b hb
        have := hle b hb
        simp
        omega
      have hnone' : l.filter (fun a => a.1 = k) = [] := by
        rw [List.filter_eq_nil_iff]
        intro b hb
        have := hle b hb
        simp
        omega
      have hnl : ¬ a.1 < k := by omega
      have hne : a.1 ≠ k := by omega
      rw [hnone, hnone'] at ih
      simpa [hgt, hnl, hne, hnone, hnone'] using ih

theorem sortArchives_split (k : ℕ) (l : List (ℕ × Bytes)) :
    sortArchives l = sortArchives (l.filter fun a => a.1 < k) ++ sortArchives (l.filter fun a => a.1 = k) ++
      sortArchives (l.filter fun a => k < a.1) := by
  have hsplit := split_sorted (k := k) (List.pairwise_insertionSort (fun a b : ℕ × Bytes => a.1 ≤ b.1) l)
  rwa [Hiding.filter_insertionSort, Hiding.filter_insertionSort, Hiding.filter_insertionSort] at hsplit

/-- What the archives come to whose number has the property. -/
def appliedIf (p : ℕ → Bool) (fs : WalFiles) : List (Applied F) :=
  (sortArchives (fs.archived.filter fun a => p a.1)).flatMap fun a => applied nf crc a.2

/-- What the archives with a lower number come to, the one with this number, and
those with a higher one. -/
def lower (k : ℕ) (fs : WalFiles) : List (Applied F) := appliedIf nf crc (fun n => n < k) fs

def replaced (k : ℕ) (fs : WalFiles) : List (Applied F) := appliedIf nf crc (fun n => n = k) fs

def higher (k : ℕ) (fs : WalFiles) : List (Applied F) := appliedIf nf crc (fun n => k < n) fs

theorem appliedAll_split (k : ℕ) (fs : WalFiles) :
    appliedAll nf crc fs =
      lower nf crc k fs ++ replaced nf crc k fs ++ higher nf crc k fs ++ applied nf crc (fs.active.getD []) := by
  rw [appliedAll, sortArchives_split k, List.flatMap_append, List.flatMap_append]
  rfl

/-- **After a rotation** the archive that had the number is gone, and the active
file has its place. -/
theorem appliedAll_rotate (w : WriteAheadLog) (seq : ℕ) :
    appliedAll nf crc (w.rotate seq).files =
      lower nf crc (seq + 1) w.files ++ applied nf crc (w.files.active.getD []) ++ higher nf crc (seq + 1) w.files := by
  have hkept : ∀ p : ℕ → Bool, p (seq + 1) = false →
      appliedIf nf crc p (w.rotate seq).files = appliedIf nf crc p w.files := by
    intro p hp
    have hfilter : (w.rotate seq).files.archived.filter (fun a => p a.1) = w.files.archived.filter fun a => p a.1 := by
      have hand : ∀ a : ℕ × Bytes, (p a.1 && decide (a.1 ≠ seq + 1)) = p a.1 := by
        intro a
        by_cases ha : a.1 = seq + 1
        · simp [ha, hp]
        · simp [ha]
      simp only [WriteAheadLog.rotate, List.filter_append, List.filter_filter, hand]
      simp [hp]
    unfold appliedIf
    rw [hfilter]
  have hnew : replaced nf crc (seq + 1) (w.rotate seq).files = applied nf crc (w.files.active.getD []) := by
    have hfilter : (w.rotate seq).files.archived.filter (fun a => decide (a.1 = seq + 1)) =
        [(seq + 1, w.files.active.getD [])] := by
      simp [WriteAheadLog.rotate, List.filter_filter]
    unfold replaced appliedIf
    rw [hfilter]
    simp [sortArchives]
  rw [appliedAll_split nf crc (seq + 1), hnew]
  have hlower : lower nf crc (seq + 1) (w.rotate seq).files = lower nf crc (seq + 1) w.files := hkept _ (by simp)
  have hhigher : higher nf crc (seq + 1) (w.rotate seq).files = higher nf crc (seq + 1) w.files := hkept _ (by simp)
  rw [hlower, hhigher]
  exact List.append_nil _

theorem readable_rotate {w : WriteAheadLog} (h : Readable w.files) (seq : ℕ) : Readable (w.rotate seq).files where
  archived := fun a ha => by
    rcases List.mem_append.mp ha with ha | ha
    · exact h.archived a (List.mem_filter.mp ha).1
    · rw [List.mem_singleton.mp ha]
      exact h.active
  active := Nat.zero_le _

/-! ### Histories -/

inductive Op
  | construct
  | appendPut (payload : Bytes)
  | appendDelete (payload : Bytes)
  | rotate
  | close

/-- The log, and the entries that have been appended, in all lives. -/
structure History where
  wal : WriteAheadLog := {}
  appended : List WalEntry := []

namespace History

/-- An entry whose append throws has not been appended. -/
def appendEntry (strerror : String) (h : History) (e : WalEntry) : History :=
  match h.wal.rotationSeq with
  | some _ =>
    { wal := (h.wal.appendEntry crc strerror e).2
      appended := if (h.wal.appendEntry crc strerror e).1.isOk then h.appended ++ [e] else h.appended }
  | none => h

/-- One step. Without an object the log can only be constructed. -/
def step (strerror : String) (h : History) : Op → History
  | .construct => { h with wal := h.wal.construct }
  | .appendPut payload => h.appendEntry crc strerror ⟨WalEntry.Put, payload⟩
  | .appendDelete payload => h.appendEntry crc strerror ⟨WalEntry.Delete, payload⟩
  | .rotate =>
    match h.wal.rotationSeq with
    | some seq => { h with wal := h.wal.rotate seq }
    | none => h
  | .close => { h with wal := h.wal.close }

/-- Recovery returns, and applies each entry that was appended, once and in order. -/
def Complete (path strerror : String) (h : History) : Prop :=
  (recover nf crc path strerror h.wal.files).thrown = none ∧
    h.appended.map (WalEntry.apply nf crc) = (recover nf crc path strerror h.wal.files).calls.map some

/-- An append that loses nothing: the file can still be read with one call, and the
entry can be applied. What is left of one that is too long to be written comes to
nothing. -/
structure KeepsEntry (h : History) (e : WalEntry) : Prop where
  readable : (h.wal.files.active.getD []).length + min e.diskSize MAX_RW_COUNT ≤ MAX_RW_COUNT
  applies : e.diskSize ≤ MAX_RW_COUNT → (e.apply nf crc).isSome
  part : MAX_RW_COUNT < e.diskSize → applied nf crc ((e.encode crc).take MAX_RW_COUNT) = []

/-- A step that loses nothing: an append as above, and a rotation that takes a number
whose archive has nothing to apply, where the active file may come before the archives
with higher numbers. -/
def Keeps (h : History) : Op → Prop
  | .appendPut payload => h.wal.rotationSeq ≠ none → h.KeepsEntry nf crc ⟨WalEntry.Put, payload⟩
  | .appendDelete payload => h.wal.rotationSeq ≠ none → h.KeepsEntry nf crc ⟨WalEntry.Delete, payload⟩
  | .rotate => ∀ seq, h.wal.rotationSeq = some seq →
    replaced nf crc (seq + 1) h.wal.files = [] ∧
      applied nf crc (h.wal.files.active.getD []) ++ higher nf crc (seq + 1) h.wal.files =
        higher nf crc (seq + 1) h.wal.files ++ applied nf crc (h.wal.files.active.getD [])
  | _ => True

/-- Of an entry below 4 GiB that is too long to be written nothing is read. -/
theorem KeepsEntry.of_long {h : History} {e : WalEntry} (he : e.Fits) (hlong : MAX_RW_COUNT < e.diskSize)
    (hactive : h.wal.files.active.getD [] = []) : h.KeepsEntry nf crc e where
  readable := by
    rw [hactive, List.length_nil]
    omega
  applies := fun hle => absurd hle (Nat.not_le.mpr hlong)
  part := fun _ => by rw [applied, entries_take he hlong, List.filterMap_nil]

variable (path strerror : String)

theorem complete_iff_readable {h : History} : h.Complete nf crc path strerror ↔
    Readable h.wal.files ∧ h.appended.map (WalEntry.apply nf crc) = (appliedAll nf crc h.wal.files).map some := by
  obtain ⟨hreturns, hcalls⟩ := recover_eq nf crc path strerror h.wal.files
  unfold Complete
  rw [hreturns]
  exact and_congr_right fun hr => by rw [hcalls hr]

/-- What carries the argument: recovery is complete, and the active file holds whole
entries, or no other one can be written to it. -/
structure Sound (h : History) : Prop where
  complete : h.Complete nf crc path strerror
  whole : Whole crc (h.wal.files.active.getD []) ∨ MAX_RW_COUNT ≤ (h.wal.files.active.getD []).length

variable {path strerror}

theorem readable_appendEntry {w : WriteAheadLog} (hw : Readable w.files) (e : WalEntry) :
    Readable (w.appendEntry crc strerror e).2.files ↔
      (w.files.active.getD []).length + min e.diskSize MAX_RW_COUNT ≤ MAX_RW_COUNT := by
  have hlen : (w.files.active.getD [] ++ (e.encode crc).take MAX_RW_COUNT).length =
      (w.files.active.getD []).length + min e.diskSize MAX_RW_COUNT := by
    rw [List.length_append, List.length_take, WalEntry.length_encode, Nat.min_comm]
  rw [← hlen]
  constructor
  · intro h
    have hactive := h.active
    rw [WriteAheadLog.appendEntry_files] at hactive
    exact hactive
  · intro h
    refine ⟨?_, ?_⟩
    · rw [WriteAheadLog.appendEntry_files]
      exact hw.archived
    · rw [WriteAheadLog.appendEntry_files]
      exact h

/-- An entry that is written comes behind the others. -/
theorem appliedAll_appendEntry {w : WriteAheadLog} (hw : Whole crc (w.files.active.getD [])) {e : WalEntry}
    (he : e.diskSize ≤ MAX_RW_COUNT) :
    appliedAll nf crc (w.appendEntry crc strerror e).2.files = appliedAll nf crc w.files ++
      (e.apply nf crc).toList := by
  have hwritten : (e.encode crc).take MAX_RW_COUNT = e.encode crc :=
    List.take_of_length_le (by rwa [WalEntry.length_encode])
  have hread := (hw.append (WalEntry.fits_of_diskSize he)).2
  rw [WriteAheadLog.appendEntry_files, hwritten, appliedAll, appliedAll, List.append_assoc]
  refine congrArg _ ?_
  show applied nf crc (w.files.active.getD [] ++ e.encode crc) = _
  rw [applied, hread, List.filterMap_append, applied]
  cases h : e.apply nf crc <;> simp [h]

/-- Of an entry that is too long a part is written, which only an empty file has
room for. -/
theorem appliedAll_appendEntry_part {w : WriteAheadLog} {e : WalEntry} (he : MAX_RW_COUNT < e.diskSize)
    (hle : (w.files.active.getD []).length + min e.diskSize MAX_RW_COUNT ≤ MAX_RW_COUNT) :
    appliedAll nf crc (w.appendEntry crc strerror e).2.files =
      appliedAll nf crc w.files ++ applied nf crc ((e.encode crc).take MAX_RW_COUNT) := by
  have hnil : w.files.active.getD [] = [] := List.length_eq_zero_iff.mp (by omega)
  rw [WriteAheadLog.appendEntry_files, appliedAll, appliedAll, hnil]
  show _ ++ applied nf crc ((e.encode crc).take MAX_RW_COUNT) = _
  rw [List.append_assoc]
  rfl

theorem complete_appendEntry_iff {h : History} (hs : h.Sound nf crc path strerror) (e : WalEntry) :
    (h.appendEntry crc strerror e).Complete nf crc path strerror ↔
      (h.wal.rotationSeq ≠ none → h.KeepsEntry nf crc e) := by
  obtain ⟨hr, hold⟩ := (complete_iff_readable nf crc path strerror).mp hs.complete
  unfold appendEntry
  cases hseq : h.wal.rotationSeq with
  | none => exact iff_of_true hs.complete fun hne => absurd rfl hne
  | some seq =>
    have hsize : Readable (h.wal.appendEntry crc strerror e).2.files ↔ _ := readable_appendEntry crc hr e
    rw [complete_iff_readable]
    dsimp only
    rw [hsize, if_congr (WriteAheadLog.appendEntry_isOk crc strerror h.wal) rfl rfl]
    simp only [ne_eq, reduceCtorEq, not_false_eq_true, forall_const]
    rcases Nat.lt_or_ge MAX_RW_COUNT e.diskSize with hlong | hshort
    · rw [if_neg (Nat.not_le.mpr hlong), hold]
      constructor
      · rintro ⟨hle, heq⟩
        refine ⟨hle, fun he => absurd he (Nat.not_le.mpr hlong), fun _ => ?_⟩
        rw [(Option.some_injective _).list_map.eq_iff, appliedAll_appendEntry_part nf crc hlong hle] at heq
        exact List.self_eq_append_right.mp heq
      · intro hk
        refine ⟨hk.readable, ?_⟩
        rw [appliedAll_appendEntry_part nf crc hlong hk.readable, hk.part hlong, List.append_nil]
    · rw [if_pos hshort]
      rcases hs.whole with hwhole | hfull
      · rw [appliedAll_appendEntry nf crc hwhole hshort, List.map_append, List.map_append, hold,
          List.append_cancel_left_eq]
        constructor
        · rintro ⟨hle, heq⟩
          refine ⟨hle, fun _ => ?_, fun hlong => absurd hshort (Nat.not_le.mpr hlong)⟩
          cases ha : e.apply nf crc with
          | none => simp [ha] at heq
          | some a => rfl
        · intro hk
          obtain ⟨a, ha⟩ := Option.isSome_iff_exists.mp (hk.applies hshort)
          exact ⟨hk.readable, by simp [ha]⟩
      · have hpos : 0 < e.diskSize := by
          unfold WalEntry.diskSize
          omega
        exact iff_of_false (fun hc => by omega) fun hk => by
          have := hk.readable
          omega

theorem Sound.appendEntry {h : History} (hs : h.Sound nf crc path strerror) {e : WalEntry}
    (hk : h.wal.rotationSeq ≠ none → h.KeepsEntry nf crc e) :
    (h.appendEntry crc strerror e).Sound nf crc path strerror where
  complete := (complete_appendEntry_iff nf crc hs e).mpr hk
  whole := by
    unfold History.appendEntry
    split
    · dsimp only
      rw [WriteAheadLog.appendEntry_files, Option.getD_some]
      rcases Nat.lt_or_ge MAX_RW_COUNT e.diskSize with hlong | hshort
      · refine .inr ?_
        rw [List.length_append, List.length_take, WalEntry.length_encode]
        omega
      · rw [List.take_of_length_le (by rwa [WalEntry.length_encode])]
        rcases hs.whole with hwhole | hfull
        · exact .inl (hwhole.append (WalEntry.fits_of_diskSize hshort)).1
        · refine .inr ?_
          rw [List.length_append]
          omega
    · exact hs.whole

theorem complete_rotate_iff {h : History} (hs : h.Sound nf crc path strerror) :
    (h.step crc strerror .rotate).Complete nf crc path strerror ↔ h.Keeps nf crc .rotate := by
  obtain ⟨hr, hold⟩ := (complete_iff_readable nf crc path strerror).mp hs.complete
  unfold step Keeps
  dsimp only
  cases hseq : h.wal.rotationSeq with
  | none => simpa using hs.complete
  | some seq =>
    have hbefore := appliedAll_split nf crc (seq + 1) h.wal.files
    rw [complete_iff_readable, and_iff_right (readable_rotate hr seq)]
    dsimp only
    rw [hold, appliedAll_rotate, hbefore, (Option.some_injective _).list_map.eq_iff, List.append_assoc,
      List.append_assoc, List.append_assoc, List.append_cancel_left_eq]
    simp only [Option.some.injEq, forall_eq']
    generalize replaced nf crc (seq + 1) h.wal.files = r
    generalize applied nf crc (h.wal.files.active.getD []) = a
    generalize higher nf crc (seq + 1) h.wal.files = l
    constructor
    · intro heq
      have hlen := congrArg List.length heq
      simp only [List.length_append] at hlen
      have hr : r = [] := List.length_eq_zero_iff.mp (by omega)
      subst hr
      exact ⟨rfl, heq.symm⟩
    · rintro ⟨rfl, hcomm⟩
      exact hcomm.symm

theorem complete_construct {h : History} (hs : h.Complete nf crc path strerror) :
    (h.step crc strerror .construct).Complete nf crc path strerror := by
  obtain ⟨hr, hold⟩ := (complete_iff_readable nf crc path strerror).mp hs
  exact (complete_iff_readable nf crc path strerror).mpr ⟨⟨hr.archived, hr.active⟩, hold⟩

/-- A step keeps recovery complete if and only if it loses nothing. -/
theorem complete_step_iff {h : History} (hs : h.Sound nf crc path strerror) (op : Op) :
    (h.step crc strerror op).Complete nf crc path strerror ↔ h.Keeps nf crc op := by
  cases op with
  | construct => exact iff_of_true (complete_construct nf crc hs.complete) trivial
  | appendPut payload => exact complete_appendEntry_iff nf crc hs _
  | appendDelete payload => exact complete_appendEntry_iff nf crc hs _
  | rotate => exact complete_rotate_iff nf crc hs
  | close => exact iff_of_true hs.complete trivial

theorem Sound.step {h : History} (hs : h.Sound nf crc path strerror) {op : Op} (hk : h.Keeps nf crc op) :
    (h.step crc strerror op).Sound nf crc path strerror := by
  refine ⟨(complete_step_iff nf crc hs op).mpr hk, ?_⟩
  cases op with
  | construct => exact hs.whole
  | appendPut payload => exact (hs.appendEntry nf crc hk).whole
  | appendDelete payload => exact (hs.appendEntry nf crc hk).whole
  | rotate =>
    unfold History.step
    dsimp only
    split
    · exact .inl (whole_nil crc)
    · exact hs.whole
  | close => exact hs.whole

theorem sound_init : Sound nf crc path strerror {} where
  complete := (complete_iff_readable nf crc path strerror).mpr
    ⟨⟨fun _ ha => absurd ha List.not_mem_nil, Nat.zero_le _⟩, rfl⟩
  whole := .inl (whole_nil crc)

variable (path strerror)

/-- **When recovery is complete.** It is after each step of a history if and only
if each step loses nothing. -/
theorem complete_iff (os : List Op) :
    (∀ pre, pre <+: os → (Run.run (step crc strerror) {} pre).Complete nf crc path strerror) ↔
      Run.Along (step crc strerror) (Keeps nf crc) {} os :=
  Run.along_iff_of_inv (I := fun _ (h : History) => h.Sound nf crc path strerror)
    (P := fun _ (h : History) => h.Complete nf crc path strerror)
    (D := fun _ _ => True) (fun _ _ _ hs _ hk => hs.step nf crc hk) (fun _ _ hs => hs.complete)
    (fun _ _ op hs _ hc => (complete_step_iff nf crc hs op).mp hc) (sound_init nf crc) (Run.along_true _ _)

/-- Two lives with a rotation each. -/
def twoLives : List Op :=
  [.construct, .appendDelete (toLE 8 1), .rotate, .close, .construct, .appendDelete (toLE 8 2), .rotate]

/-- The second life's archive has the number of the first's, so recovery applies
one of the two entries. -/
theorem twoLives_incomplete :
    ¬ (∀ os : List Op, (Run.run (step crc32c "") {} os).Complete Numbers.whole crc32c "store.wal" "") ∧
    (Run.run (step crc32c "") {} twoLives).appended.length = 2 ∧
    (recover Numbers.whole crc32c "store.wal" "" (Run.run (step crc32c "") {} twoLives).wal.files).calls.length = 1 := by
  have hboth : (Run.run (step crc32c "") {} twoLives).appended.length = 2 := by decide +kernel
  have hreadable : Readable (Run.run (step crc32c "") {} twoLives).wal.files :=
    ⟨by decide +kernel, by decide +kernel⟩
  have hone : (recover Numbers.whole crc32c "store.wal" ""
      (Run.run (step crc32c "") {} twoLives).wal.files).calls.length = 1 := by
    rw [(recover_eq Numbers.whole crc32c "store.wal" "" _).2 hreadable]
    decide +kernel
  refine ⟨fun h => ?_, hboth, hone⟩
  have hlen := congrArg List.length (h twoLives).2
  rw [List.length_map, List.length_map, hboth, hone] at hlen
  cases hlen

end History

end Storage
end Amind
