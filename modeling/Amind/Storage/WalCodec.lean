/-
# Reading a log file of the storage layer

`readAll` reads the file into memory with one call and walks over it by offsets:
a length, the entry's bytes, a checksum. It stops at the first entry that does
not end inside the file or whose checksum is wrong. Each access says here which
bytes it takes (`within`), and `parse_eq` says that none of them are outside,
whatever the file holds, and that the walk finds what reading entry after entry
from the front finds.

A call of the system that fails or comes back short makes `readAll` throw, and the
one call that reads comes back short for a file that is longer than a call reads
(`readAll_truncated_iff`). An offset does not wrap: a file is no longer than a signed
64-bit size.
-/
import Amind.Lib.Checked
import Amind.Core.Crc32
import Amind.Storage.Wal

namespace Amind
namespace Storage
namespace WalCodec

open ByteReader LittleEndian
open Checked (within ok_bind within_of_le)

variable (crc : Bytes → UInt32)

/-- The loop of `readAll` over the bytes in memory. -/
def parse (file : Bytes) (offset : ℕ) (entries : List WalEntry) : Checked String (List WalEntry) :=
  if offset + 4 ≤ file.length then do
    within file.length offset 4
    let length := field file offset 4
    if length < 1 then .ok entries
    else
      let entryTotal := 4 + length + 4
      if offset + entryTotal > file.length then .ok entries
      else do
        let crcRegionSize := 4 + length
        within file.length offset crcRegionSize
        let computedCrc := crc (slice file offset crcRegionSize)
        within file.length (offset + crcRegionSize) 4
        let storedCrc := field file (offset + crcRegionSize) 4
        if computedCrc.toNat ≠ storedCrc then .ok entries
        else do
          let bodyOffset := offset + 4
          within file.length bodyOffset 1
          let type := file.getD bodyOffset 0
          let payloadSize := length - 1
          within file.length (bodyOffset + 1) payloadSize
          let payload := slice file (bodyOffset + 1) payloadSize
          parse file (offset + entryTotal) (entries ++ [⟨type, payload⟩])
  else .ok entries
termination_by file.length - offset

/-- How the system answers the calls of a read, and `strerror` of the errno it
leaves. -/
structure ReadCalls where
  opened : Bool
  statted : Bool
  bytesRead : ℤ
  strerror : String

/-- Open the file, if it exists, read it whole, and parse it. -/
def readAll (path : String) (sys : ReadCalls) : Option Bytes → Checked String (List WalEntry)
  | none => .ok []
  | some file =>
    if !sys.opened then
      .error (.thrown ("Failed to open WAL for reading: " ++ path ++ " — " ++ sys.strerror))
    else if !sys.statted then .error (.thrown ("Failed to stat WAL file: " ++ sys.strerror))
    else if 0 < file.length ∧ (sys.bytesRead < 0 ∨ sys.bytesRead ≠ file.length) then
      .error (.thrown ("Failed to read WAL file: " ++ sys.strerror))
    else parse crc file 0 []

/-- The calls that answer with as much of a file as one call reads. -/
def ReadCalls.linux (file : Bytes) (strerror : String) : ReadCalls where
  opened := true
  statted := true
  bytesRead := min file.length MAX_RW_COUNT
  strerror := strerror

/-- Every call answers, with all of the file. -/
def ReadCalls.Whole (sys : ReadCalls) (file : Bytes) : Prop :=
  sys.opened = true ∧ sys.statted = true ∧ (file = [] ∨ sys.bytesRead = file.length)

/-! ### One entry -/

/-- What stands at the offset of an entry. -/
theorem fields_of_encode {file front rest : Bytes} {e : WalEntry} (he : e.Fits)
    (h : file = front ++ (e.encode crc ++ rest)) :
    field file front.length 4 = 1 + e.payload.length ∧
      slice file front.length (4 + (1 + e.payload.length)) = e.crcRegion ∧
      field file (front.length + (4 + (1 + e.payload.length))) 4 = (crc e.crcRegion).toNat ∧
      file.getD (front.length + 4) 0 = e.type ∧
      slice file (front.length + 4 + 1) e.payload.length = e.payload := by
  have hcrc : (crc e.crcRegion).toNat < 256 ^ 4 := (crc e.crcRegion).toNat_lt
  have hregion : e.crcRegion.length = 4 + (1 + e.payload.length) := by
    simp [WalEntry.crcRegion]
    omega
  refine ⟨?_, ?_, ?_, ?_, ?_⟩
  · rw [field_eq (p := front) (m := toLE 4 (1 + e.payload.length)) ?_ rfl (length_toLE _ _), ofLE_toLE_of_lt he]
    simp [h, WalEntry.encode, WalEntry.crcRegion]
  · exact slice_eq (p := front) (by simp [h, WalEntry.encode]) rfl hregion
  · rw [field_eq (p := front ++ e.crcRegion) (m := toLE 4 (crc e.crcRegion).toNat) ?_
      (by rw [List.length_append, hregion]) (length_toLE _ _), ofLE_toLE_of_lt hcrc]
    simp [h, WalEntry.encode]
  · have hfile : file = (front ++ toLE 4 (1 + e.payload.length)) ++
        e.type :: (e.payload ++ (toLE 4 (crc e.crcRegion).toNat ++ rest)) := by
      simp [h, WalEntry.encode, WalEntry.crcRegion]
    rw [hfile, List.getD_eq_getElem?_getD, List.getElem?_append_right (by simp)]
    simp
  · exact slice_eq (p := front ++ toLE 4 (1 + e.payload.length) ++ [e.type])
      (by simp [h, WalEntry.encode, WalEntry.crcRegion]) (by simp) rfl

/-- The walk takes an entry that is whole. -/
theorem parse_of_encode {file front rest : Bytes} {e : WalEntry} (entries : List WalEntry) (he : e.Fits)
    (h : file = front ++ (e.encode crc ++ rest)) :
    parse crc file front.length entries = parse crc file (front.length + e.diskSize) (entries ++ [e]) := by
  obtain ⟨hlength, hregion, hstored, htype, hpayload⟩ := fields_of_encode crc he h
  have hsize : file.length = front.length + (4 + 1 + e.payload.length + 4) + rest.length := by
    rw [h, List.length_append, List.length_append, WalEntry.length_encode]
    simp only [WalEntry.diskSize]
    omega
  have htotal : 4 + (1 + e.payload.length) + 4 = e.diskSize := by
    simp only [WalEntry.diskSize]
    omega
  rw [parse, if_pos (by omega), within_of_le (by omega), ok_bind]
  simp only [hlength]
  rw [if_neg (by omega), if_neg (by omega), within_of_le (by omega), ok_bind, within_of_le (by omega), ok_bind,
    hregion, hstored, if_neg (by simp), within_of_le (by omega), ok_bind, Nat.add_sub_cancel_left,
    within_of_le (by omega), ok_bind, htype, hpayload, htotal]

/-- An entry stands where the checks of the walk succeed. -/
theorem encode_of_fields {bs : Bytes} (hone : 1 ≤ field bs 0 4) (hle : 4 + field bs 0 4 + 4 ≤ bs.length)
    (hcrc : (crc (bs.take (4 + field bs 0 4))).toNat = field bs (4 + field bs 0 4) 4) :
    ∃ (e : WalEntry) (rest : Bytes), e.Fits ∧ bs = e.encode crc ++ rest := by
  obtain ⟨length, hlength⟩ : ∃ length, field bs 0 4 = length := ⟨_, rfl⟩
  rw [hlength] at hone hle hcrc
  have htake : (bs.take 4).length = 4 := by simp; omega
  have hbody : ((bs.drop 4).take length).length = length := by simp; omega
  have hstored : ((bs.drop (4 + length)).take 4).length = 4 := by simp; omega
  have hfront : toLE 4 length = bs.take 4 := by
    have := toLE_ofLE (bs.take 4)
    rw [htake] at this
    rw [← hlength, field, List.drop_zero, this]
  -- a body of at least one byte is a type and a payload
  obtain ⟨type, payload, hcons⟩ : ∃ type payload, (bs.drop 4).take length = type :: payload := by
    cases hb : (bs.drop 4).take length with
    | nil => simp [hb] at hbody; omega
    | cons type payload => exact ⟨type, payload, rfl⟩
  have hpayload : 1 + payload.length = length := by
    rw [hcons, List.length_cons] at hbody
    omega
  have hregion : (⟨type, payload⟩ : WalEntry).crcRegion = bs.take (4 + length) := by
    rw [WalEntry.crcRegion, hpayload, hfront, ← hcons, List.take_add]
  refine ⟨⟨type, payload⟩, bs.drop (4 + length + 4), ?_, ?_⟩
  · have hlt := ofLE_lt (bs.take 4)
    rw [htake] at hlt
    rw [WalEntry.Fits, hpayload, ← hlength, field, List.drop_zero]
    exact hlt
  · have hcrc' : toLE 4 (crc (bs.take (4 + length))).toNat = (bs.drop (4 + length)).take 4 := by
      have := toLE_ofLE ((bs.drop (4 + length)).take 4)
      rw [hstored] at this
      rw [hcrc, field, this]
    have hlast : (bs.drop (4 + length)).take 4 ++ bs.drop (4 + length + 4) = bs.drop (4 + length) := by
      have := List.take_append_drop 4 (bs.drop (4 + length))
      rwa [List.drop_drop] at this
    calc bs = bs.take (4 + length) ++ bs.drop (4 + length) := (List.take_append_drop _ _).symm
      _ = bs.take (4 + length) ++ ((bs.drop (4 + length)).take 4 ++ bs.drop (4 + length + 4)) := by rw [hlast]
      _ = WalEntry.encode crc ⟨type, payload⟩ ++ bs.drop (4 + length + 4) := by
          rw [WalEntry.encode, hregion, hcrc', List.append_assoc]

/-- The walk stops where there is none. -/
theorem parse_of_none {file : Bytes} {offset : ℕ} (entries : List WalEntry)
    (h : WalEntry.read crc (file.drop offset) = none) : parse crc file offset entries = .ok entries := by
  have hfield : ∀ k, field file (offset + k) 4 = field (file.drop offset) k 4 := by simp [field, List.drop_drop]
  have hlength := hfield 0
  rw [Nat.add_zero] at hlength
  rw [parse]
  split
  · rw [within_of_le (by omega), ok_bind, hlength]
    dsimp only
    split
    · rfl
    · split
      · rfl
      · rw [within_of_le (by omega), ok_bind, within_of_le (by omega), ok_bind, hfield]
        split
        · rfl
        · rename_i hone hle hcrc
          obtain ⟨e, rest, he, heq⟩ := encode_of_fields crc (show 1 ≤ field (file.drop offset) 0 4 by omega)
            (by rw [List.length_drop]; omega) (not_not.mp hcrc)
          rw [heq, WalEntry.reads_read crc he] at h
          cases h
  · rfl

/-- The walk from an offset finds what is read from there on. -/
theorem parse_eq {file : Bytes} {front bs : Bytes} (entries : List WalEntry) (h : file = front ++ bs) :
    parse crc file front.length entries = .ok (entries ++ Storage.entries crc bs) := by
  induction hl : bs.length using Nat.strong_induction_on generalizing front bs entries with
  | h l ih =>
    cases hread : WalEntry.read crc bs with
    | none =>
      have hdrop : file.drop front.length = bs := by simp [h]
      rw [parse_of_none crc entries (by rw [hdrop, hread]), Storage.entries, all_of_none hread, List.append_nil]
    | some p =>
      obtain ⟨e, rest⟩ := p
      obtain ⟨he, heq⟩ := WalEntry.of_read crc hread
      have hlt := (WalEntry.frames_read crc).advances bs e rest hread
      have hfile : file = (front ++ e.encode crc) ++ rest := by rw [h, heq, List.append_assoc]
      have hfront : (front ++ e.encode crc).length = front.length + e.diskSize := by
        rw [List.length_append, WalEntry.length_encode]
      rw [parse_of_encode crc entries he (by rw [h, heq]), ← hfront,
        ih rest.length (by omega) _ hfile rfl, Storage.entries, Storage.entries,
        (WalEntry.frames_read crc).advances.all_of_some hread, List.append_assoc, List.singleton_append]

/-! ### The whole file -/

/-- What `readAll` comes to: the entries of the file, or an exception where a
call does not answer in full. -/
theorem readAll_eq (path : String) (sys : ReadCalls) (file : Bytes) :
    (sys.Whole file → readAll crc path sys (some file) = .ok (Storage.entries crc file)) ∧
      (¬sys.Whole file → ∃ why, readAll crc path sys (some file) = .error (.thrown why)) := by
  have hparse : parse crc file 0 [] = .ok (Storage.entries crc file) := parse_eq crc [] (List.nil_append file).symm
  simp only [readAll]
  constructor
  · rintro ⟨hopened, hstatted, hread⟩
    have hfull : ¬(0 < file.length ∧ (sys.bytesRead < 0 ∨ sys.bytesRead ≠ file.length)) := by
      rintro ⟨hpos, hshort⟩
      obtain rfl | hread := hread
      · simp at hpos
      · omega
    simp [hopened, hstatted, hfull, hparse]
  · intro hwhole
    split
    · exact ⟨_, rfl⟩
    · split
      · exact ⟨_, rfl⟩
      · split
        · exact ⟨_, rfl⟩
        · rename_i hopened hstatted hread
          refine absurd ⟨by simpa using hopened, by simpa using hstatted, ?_⟩ hwhole
          by_cases hfile : file = []
          · exact .inl hfile
          · have := List.length_pos_of_ne_nil hfile
            exact .inr (by omega)

theorem safe_readAll (path : String) (sys : ReadCalls) (contents : Option Bytes) :
    Checked.Safe (readAll crc path sys contents) := by
  cases contents with
  | none => trivial
  | some file =>
    by_cases hwhole : sys.Whole file
    · rw [(readAll_eq crc path sys file).1 hwhole]
      trivial
    · obtain ⟨why, h⟩ := (readAll_eq crc path sys file).2 hwhole
      rw [h]
      trivial

theorem whole_linux {file : Bytes} {strerror : String} :
    (ReadCalls.linux file strerror).Whole file ↔ file.length ≤ MAX_RW_COUNT := by
  have hmin : min (file.length : ℤ) MAX_RW_COUNT = file.length ↔ file.length ≤ MAX_RW_COUNT := by omega
  have hnil : file = [] → file.length ≤ MAX_RW_COUNT := by
    rintro rfl
    exact Nat.zero_le _
  unfold ReadCalls.Whole ReadCalls.linux
  rw [hmin]
  exact ⟨fun h => h.2.2.elim hnil id, fun h => ⟨rfl, rfl, .inr h⟩⟩

/-- A file is read if one call reads it. -/
theorem readAll_linux (path strerror : String) {file : Bytes} (h : file.length ≤ MAX_RW_COUNT) :
    readAll crc path (.linux file strerror) (some file) = .ok (Storage.entries crc file) :=
  (readAll_eq crc path _ file).1 (whole_linux.mpr h)

theorem readAll_linux_thrown (path strerror : String) {file : Bytes} (h : ¬ file.length ≤ MAX_RW_COUNT) :
    ∃ why, readAll crc path (.linux file strerror) (some file) = .error (.thrown why) :=
  (readAll_eq crc path _ file).2 fun hw => h (whole_linux.mp hw)

/-! ### A log that is cut -/

/-- The file after entries were given to a new log to append. -/
def appended (strerror : String) (es : List WalEntry) : Bytes :=
  (es.foldl (fun w e => (w.appendEntry crc strerror e).2) ({} : WriteAheadLog).construct).files.active.getD []

theorem appended_eq (strerror : String) (es : List WalEntry) :
    appended crc strerror es = es.flatMap fun e => (e.encode crc).take MAX_RW_COUNT := by
  have h : ∀ (es : List WalEntry) (w : WriteAheadLog),
      (es.foldl (fun w e => (w.appendEntry crc strerror e).2) w).files.active.getD [] =
        w.files.active.getD [] ++ es.flatMap fun e => (e.encode crc).take MAX_RW_COUNT := by
    intro es
    induction es with
    | nil => simp
    | cons e es ih =>
      intro w
      rw [List.foldl_cons, ih, WriteAheadLog.appendEntry_files, List.flatMap_cons, ← List.append_assoc]
      rfl
  rw [appended, h]
  rfl

/-- As much of the file as one call reads has nothing in it behind an entry that was
taken in part. -/
theorem take_flatMap_take {n k : ℕ} (hn : n ≤ k) : ∀ es : List WalEntry,
    (es.flatMap fun e => (e.encode crc).take k).take n = (es.flatMap (WalEntry.encode crc)).take n
  | [] => rfl
  | e :: es => by
    have ih := take_flatMap_take (k := k) (n := n - (e.encode crc).length) (by omega) es
    rw [List.flatMap_cons, List.flatMap_cons, List.take_append, List.take_append, List.take_take, Nat.min_eq_left hn]
    congr 1
    rcases Nat.lt_or_ge k (e.encode crc).length with hlong | hshort
    · have hzero : n - ((e.encode crc).take k).length = 0 := by
        rw [List.length_take]
        omega
      have hzero' : n - (e.encode crc).length = 0 := by omega
      rw [hzero, hzero', List.take_zero, List.take_zero]
    · rw [List.take_of_length_le hshort]
      exact ih

/-- The longest prefix of the entries that lies wholly in the file. -/
structure LongestIn (es : List WalEntry) (file : Bytes) (out : List WalEntry) : Prop where
  isPrefix : out <+: es
  within : out.flatMap (WalEntry.encode crc) <+: file
  longest : ∀ es', es' <+: es → es'.flatMap (WalEntry.encode crc) <+: file → es' <+: out

theorem longestIn_of_longestWithin {es out : List WalEntry} {n : ℕ}
    (h : LongestWithin (WalEntry.encode crc) es n out) :
    LongestIn crc es ((es.flatMap (WalEntry.encode crc)).take n) out where
  isPrefix := h.isPrefix
  within := by
    obtain ⟨rest, rfl⟩ := h.isPrefix
    rw [List.flatMap_append, List.take_append, List.take_of_length_le h.within]
    exact List.prefix_append _ _
  longest := fun es' hes hin => h.longest es' hes (le_trans hin.length_le (List.length_take_le _ _))

/-- `readAll` returns the longest prefix of the entries that lies wholly in the file. -/
def ReadsPrefix (path strerror : String) (es : List WalEntry) (file : Bytes) : Prop :=
  ∃ out, readAll crc path (.linux file strerror) (some file) = .ok out ∧ LongestIn crc es file out

/-- **When a log that is cut anywhere is read.** `readAll` returns the longest prefix of
the entries appended that lies wholly in the file if and only if one call reads what is
left of the file. Whatever the file holds and the system answers, it stays inside. -/
theorem readAll_truncated_iff (path strerror : String) (es : List WalEntry)
    (hes : ∀ e ∈ es, e.payload.length < 2 ^ 32 - 1) (cut : ℕ) :
    (ReadsPrefix crc path strerror es ((appended crc strerror es).take cut) ↔
      ((appended crc strerror es).take cut).length ≤ MAX_RW_COUNT) ∧
    ∀ sys contents, Checked.Safe (readAll crc path sys contents) := by
  have hfits : ∀ e ∈ es, e.Fits := by
    intro e he
    have := hes e he
    unfold WalEntry.Fits
    omega
  refine ⟨⟨?_, fun hsize => ?_⟩, fun sys contents => safe_readAll crc path sys contents⟩
  · rintro ⟨out, hread, -⟩
    by_contra hlong
    obtain ⟨why, hthrown⟩ := readAll_linux_thrown crc path strerror hlong
    rw [hthrown] at hread
    cases hread
  · have hfile : (appended crc strerror es).take cut =
        (es.flatMap (WalEntry.encode crc)).take ((appended crc strerror es).take cut).length := by
      have hcut : (appended crc strerror es).take cut =
          (appended crc strerror es).take ((appended crc strerror es).take cut).length := by
        rw [List.length_take, List.take_eq_take_iff]
        omega
      rw [← take_flatMap_take crc hsize, ← appended_eq crc strerror]
      exact hcut
    have hlongest := (WalEntry.frames_read crc).all_take ((appended crc strerror es).take cut).length hfits
    refine ⟨Storage.entries crc ((appended crc strerror es).take cut), readAll_linux crc path strerror hsize, ?_⟩
    have hin := longestIn_of_longestWithin crc hlongest
    rwa [← hfile] at hin

/-- Two entries, the second without its last byte. -/
theorem readAll_truncated_second :
    (ReadsPrefix (fun _ => 7) "store.wal" "" [⟨WalEntry.Put, [1, 2]⟩, ⟨WalEntry.Delete, [3]⟩]
        ((appended (fun _ => 7) "" [⟨WalEntry.Put, [1, 2]⟩, ⟨WalEntry.Delete, [3]⟩]).take 20) ↔
      ((appended (fun _ => 7) "" [⟨WalEntry.Put, [1, 2]⟩, ⟨WalEntry.Delete, [3]⟩]).take 20).length ≤ MAX_RW_COUNT) ∧
    ∀ sys contents, Checked.Safe (readAll (fun _ => 7) "store.wal" sys contents) :=
  readAll_truncated_iff (fun _ => 7) "store.wal" "" _ (by decide) 20

/-- A put of zeros. -/
def zeros (n : ℕ) : WalEntry := ⟨WalEntry.Put, List.replicate n 0⟩

/-- Each of two entries is appended with one call, and none reads both. -/
theorem readAll_zeros {n : ℕ} (hone : n + 9 ≤ MAX_RW_COUNT) (hboth : MAX_RW_COUNT < 2 * (n + 9)) :
    (∀ e ∈ [zeros n, zeros n], e.payload.length < 2 ^ 32 - 1 ∧ e.diskSize ≤ MAX_RW_COUNT) ∧
    ¬ ReadsPrefix crc32c "store.wal" "" [zeros n, zeros n] (appended crc32c "" [zeros n, zeros n]) := by
  have hpayload : (zeros n).payload.length = n := List.length_replicate
  have hsize : (zeros n).diskSize = n + 9 := by
    rw [WalEntry.diskSize, hpayload]
    omega
  have hpart : (((zeros n).encode crc32c).take MAX_RW_COUNT).length = n + 9 := by
    rw [List.length_take, WalEntry.length_encode, hsize, Nat.min_eq_right hone]
  constructor
  · intro e he
    obtain rfl : e = zeros n := by simpa using he
    rw [hpayload, hsize]
    unfold MAX_RW_COUNT at hone ⊢
    omega
  · rintro ⟨out, hread, -⟩
    have hlong : ¬ (appended crc32c "" [zeros n, zeros n]).length ≤ MAX_RW_COUNT := by
      rw [appended_eq, List.flatMap_cons, List.flatMap_singleton, List.length_append, hpart]
      omega
    obtain ⟨why, hthrown⟩ := readAll_linux_thrown crc32c "store.wal" "" hlong
    rw [hthrown] at hread
    cases hread

/-- Two puts of a GiB each are not read. -/
theorem readAll_twoZeros : (∀ e ∈ [zeros (2 ^ 30), zeros (2 ^ 30)],
      e.payload.length < 2 ^ 32 - 1 ∧ e.diskSize ≤ MAX_RW_COUNT) ∧
    ¬ ReadsPrefix crc32c "store.wal" "" [zeros (2 ^ 30), zeros (2 ^ 30)]
      (appended crc32c "" [zeros (2 ^ 30), zeros (2 ^ 30)]) :=
  readAll_zeros (n := 2 ^ 30) (by decide) (by decide)

end WalCodec
end Storage
end Amind
