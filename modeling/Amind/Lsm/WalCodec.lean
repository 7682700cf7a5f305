/-
# The write-ahead log's records

A record is a header of 32 bytes (magic, version, type, three reserved bytes,
sequence number, key, length of the data, CRC of the 28 bytes before) and,
when there is data, the data and its CRC. `encode` is what `writeRecord`
writes; `readRecord` is one turn of the replay loop over a segment, which
stops, skips what fails a CRC, or delivers a record.

A written record that the reader accepts is read back (`readRecord_encode`),
so a segment replays as the records written to it, up to the first one whose
data is over the reader's limit (`segmentRecords_encodeAll`); a record cut
short ends the replay (`readRecord_torn`).

The CRC is a parameter: nothing here needs more of it than that it is a
function of the bytes.
-/
import Amind.Lib.LittleEndian
import Amind.Lsm.MemTable

namespace Amind
namespace Lsm
namespace Wal

open LittleEndian

def WAL_MAGIC : ℕ := 0x574C
def WAL_VERSION : ℕ := 1
def WAL_HEADER_SIZE : ℕ := 32

/-- The most data the reader takes for real: 64 MB. -/
def MAX_DATA_LEN : ℕ := 64 * 1024 * 1024

inductive WalRecordType
  | put
  | delete
  deriving DecidableEq, Repr

/-- A put or a delete of a key, with its sequence number. -/
structure WalRecord where
  type : WalRecordType
  seq : UInt64
  key : Key
  data : Bytes
  deriving DecidableEq, Repr

/-- The record `appendPut` writes. -/
def putRecord (seq : UInt64) (key : Key) (data : Bytes) : WalRecord := ⟨.put, seq, key, data⟩

/-- The record `appendDelete` writes. -/
def deleteRecord (seq : UInt64) (key : Key) : WalRecord := ⟨.delete, seq, key, []⟩

namespace WalRecord

/-- The type byte. -/
def typeByte (r : WalRecord) : UInt8 :=
  match r.type with
  | .put => 0
  | .delete => 1

/-- The length field: 32 bits of the size. -/
def dataLen (r : WalRecord) : ℕ := r.data.length % 2 ^ 32

/-- The data that goes to the file: as many bytes as the length field says. -/
def written (r : WalRecord) : Bytes := r.data.take r.dataLen

/-- The record as the file holds it. -/
def stored (r : WalRecord) : WalRecord := { r with data := r.written }

/-- The reader accepts the record. -/
def Readable (r : WalRecord) : Prop := r.dataLen ≤ MAX_DATA_LEN ∧ (r.type = .delete → r.dataLen = 0)

instance (r : WalRecord) : Decidable r.Readable := by unfold Readable; infer_instance

theorem length_written (r : WalRecord) : r.written.length = r.dataLen := by
  simp [written, dataLen, Nat.mod_le]

theorem dataLen_lt (r : WalRecord) : r.dataLen < 2 ^ 32 := Nat.mod_lt _ (by decide)

/-- Data within the reader's limit is written whole. -/
theorem stored_of_le {r : WalRecord} (h : r.data.length ≤ MAX_DATA_LEN) : r.stored = r := by
  have hlt : r.data.length < 2 ^ 32 := lt_of_le_of_lt h (by unfold MAX_DATA_LEN; omega)
  have hwritten : r.written = r.data := by
    rw [written, dataLen, Nat.mod_eq_of_lt hlt, List.take_length]
  rw [stored, hwritten]

end WalRecord

/-! ### Writing -/

section Codec

variable (crc : Bytes → UInt32)

/-- The 28 bytes the header's CRC covers. -/
def headerBody (r : WalRecord) : Bytes :=
  toLE 2 WAL_MAGIC ++ toLE 2 WAL_VERSION ++ [r.typeByte] ++ [0, 0, 0] ++ toLE 8 r.seq.toNat ++
    toLE 8 r.key.toNat ++ toLE 4 r.dataLen

/-- The header. -/
def header (r : WalRecord) : Bytes := headerBody r ++ toLE 4 (crc (headerBody r)).toNat

/-- What follows the header. -/
def payload (r : WalRecord) : Bytes :=
  if 0 < r.dataLen then r.written ++ toLE 4 (crc r.written).toNat else []

/-- The bytes `writeRecord` appends to the segment. -/
def encode (r : WalRecord) : Bytes := header crc r ++ payload crc r

/-- A segment the records were written to. -/
def encodeAll (rs : List WalRecord) : Bytes := rs.flatMap (encode crc)

/-! ### Reading -/

/-- One turn of the replay loop. -/
inductive ReadStep
  | stop
  | skip (rest : Bytes)
  | record (r : WalRecord) (rest : Bytes)

/-- Where the loop goes on. -/
def ReadStep.rest : ReadStep → Option Bytes
  | .stop => none
  | .skip rest => some rest
  | .record _ rest => some rest

/-- The type byte read back: any byte but 1 is taken for a put. -/
def typeOf (b : ℕ) : WalRecordType := if b = 1 then .delete else .put

/-- Read the record the segment starts with. -/
def readRecord (bs : Bytes) : ReadStep :=
  if bs.length < WAL_HEADER_SIZE then .stop
  else
    let header := bs.take WAL_HEADER_SIZE
    let rest := bs.drop WAL_HEADER_SIZE
    let dataLen := field header 24 4
    let data := rest.take dataLen
    if field header 0 2 ≠ WAL_MAGIC then .stop
    else if field header 2 2 ≠ WAL_VERSION then .stop
    else if (crc (header.take 28)).toNat ≠ field header 28 4 then
      -- the length of a header that fails its CRC is still what is skipped
      .skip (if 0 < dataLen then rest.drop ((dataLen + 4) % 2 ^ 32) else rest)
    else if MAX_DATA_LEN < dataLen then .stop
    else if 0 < dataLen ∧ rest.length < dataLen + 4 then .stop
    else if 0 < dataLen ∧ (crc data).toNat ≠ field rest dataLen 4 then .skip (rest.drop (dataLen + 4))
    else if typeOf (field header 4 1) = .delete ∧ 0 < dataLen then .stop
    else
      .record ⟨typeOf (field header 4 1), UInt64.ofNat (field header 8 8),
        UInt64.ofNat (field header 16 8), data⟩ (if 0 < dataLen then rest.drop (dataLen + 4) else rest)

/-- The replay loop, with fuel for the records left. -/
def readRecords : ℕ → Bytes → List WalRecord
  | 0, _ => []
  | n + 1, bs =>
    match readRecord crc bs with
    | .stop => []
    | .skip rest => readRecords n rest
    | .record r rest => r :: readRecords n rest

/-- The records a segment delivers. -/
def segmentRecords (bs : Bytes) : List WalRecord := readRecords crc bs.length bs

/-! ### The header's fields -/

@[simp] theorem length_headerBody (r : WalRecord) : (headerBody r).length = 28 := by
  simp [headerBody]

@[simp] theorem length_header (r : WalRecord) : (header crc r).length = WAL_HEADER_SIZE := by
  simp [header, WAL_HEADER_SIZE]

theorem take_header (r : WalRecord) : (header crc r).take 28 = headerBody r := by
  rw [header, List.take_append_of_le_length (by simp), List.take_of_length_le (by simp)]

theorem header_magic (r : WalRecord) : field (header crc r) 0 2 = WAL_MAGIC := by
  have h : [] ++ toLE 2 WAL_MAGIC <+: header crc r :=
    ⟨_, by simp only [header, headerBody, List.append_assoc, List.nil_append]; rfl⟩
  rw [field_eq h (by simp) (by simp)]
  exact ofLE_toLE_of_lt (by decide)

theorem header_version (r : WalRecord) : field (header crc r) 2 2 = WAL_VERSION := by
  have h : toLE 2 WAL_MAGIC ++ toLE 2 WAL_VERSION <+: header crc r :=
    ⟨_, by simp only [header, headerBody, List.append_assoc]; rfl⟩
  rw [field_eq h (by simp) (by simp)]
  exact ofLE_toLE_of_lt (by decide)

theorem header_type (r : WalRecord) : typeOf (field (header crc r) 4 1) = r.type := by
  have h : (toLE 2 WAL_MAGIC ++ toLE 2 WAL_VERSION) ++ [r.typeByte] <+: header crc r :=
    ⟨_, by simp only [header, headerBody, List.append_assoc]; rfl⟩
  rw [field_eq h (by simp) (by simp)]
  cases ht : r.type <;> simp [typeOf, ofLE, WalRecord.typeByte, ht]

theorem header_seq (r : WalRecord) : UInt64.ofNat (field (header crc r) 8 8) = r.seq := by
  have h : (toLE 2 WAL_MAGIC ++ toLE 2 WAL_VERSION ++ [r.typeByte] ++ [0, 0, 0]) ++
      toLE 8 r.seq.toNat <+: header crc r :=
    ⟨_, by simp only [header, headerBody, List.append_assoc]; rfl⟩
  rw [field_eq h (by simp) (by simp), ofLE_toLE_of_lt r.seq.toNat_lt]
  simp

theorem header_key (r : WalRecord) : UInt64.ofNat (field (header crc r) 16 8) = r.key := by
  have h : (toLE 2 WAL_MAGIC ++ toLE 2 WAL_VERSION ++ [r.typeByte] ++ [0, 0, 0] ++
      toLE 8 r.seq.toNat) ++ toLE 8 r.key.toNat <+: header crc r :=
    ⟨_, by simp only [header, headerBody, List.append_assoc]; rfl⟩
  rw [field_eq h (by simp) (by simp), ofLE_toLE_of_lt r.key.toNat_lt]
  simp

theorem header_dataLen (r : WalRecord) : field (header crc r) 24 4 = r.dataLen := by
  have h : (toLE 2 WAL_MAGIC ++ toLE 2 WAL_VERSION ++ [r.typeByte] ++ [0, 0, 0] ++
      toLE 8 r.seq.toNat ++ toLE 8 r.key.toNat) ++ toLE 4 r.dataLen <+: header crc r :=
    ⟨_, by simp only [header, headerBody, List.append_assoc]; rfl⟩
  rw [field_eq h (by simp) (by simp)]
  exact ofLE_toLE_of_lt (r.dataLen_lt.trans_le (by decide))

theorem header_crc (r : WalRecord) :
    field (header crc r) 28 4 = (crc (headerBody r)).toNat := by
  have h : headerBody r ++ toLE 4 (crc (headerBody r)).toNat <+: header crc r := List.prefix_refl _
  rw [field_eq h (by simp) (by simp)]
  exact ofLE_toLE_of_lt ((crc (headerBody r)).toNat_lt.trans_le (by decide))

/-! ### Reading back -/

theorem length_payload (r : WalRecord) :
    (payload crc r).length = if 0 < r.dataLen then r.dataLen + 4 else 0 := by
  unfold payload
  split <;> simp [WalRecord.length_written]

theorem length_encode (r : WalRecord) :
    (encode crc r).length = 32 + if 0 < r.dataLen then r.dataLen + 4 else 0 := by
  simp [encode, length_payload, WAL_HEADER_SIZE]

/-- The data's CRC is the field after the data. -/
theorem payload_crc {r : WalRecord} (h : 0 < r.dataLen) (tail : Bytes) :
    field (payload crc r ++ tail) r.dataLen 4 = (crc r.written).toNat := by
  rw [payload, if_pos h, field_eq (List.prefix_append _ _) r.length_written (by simp)]
  exact ofLE_toLE_of_lt ((crc r.written).toNat_lt.trans_le (by decide))

theorem take_payload (r : WalRecord) (tail : Bytes) :
    (payload crc r ++ tail).take r.dataLen = r.written := by
  by_cases h : 0 < r.dataLen
  · rw [payload, if_pos h, List.append_assoc, List.take_append_of_le_length (by rw [r.length_written]),
      List.take_of_length_le (by rw [r.length_written])]
  · have h0 : r.dataLen = 0 := by omega
    have hw := r.length_written
    rw [h0] at hw ⊢
    rw [List.take_zero, List.length_eq_zero_iff.mp hw]

/-- A whole header with the CRC right: what the reader does then is decided
by the length field and what follows. -/
theorem readRecord_header (r : WalRecord) (rest : Bytes) :
    readRecord crc (header crc r ++ rest) =
      if MAX_DATA_LEN < r.dataLen then .stop
      else if 0 < r.dataLen ∧ rest.length < r.dataLen + 4 then .stop
      else if 0 < r.dataLen ∧ (crc (rest.take r.dataLen)).toNat ≠ field rest r.dataLen 4 then
        .skip (rest.drop (r.dataLen + 4))
      else if r.type = .delete ∧ 0 < r.dataLen then .stop
      else .record ⟨r.type, r.seq, r.key, rest.take r.dataLen⟩
        (if 0 < r.dataLen then rest.drop (r.dataLen + 4) else rest) := by
  have hlen : ¬ (header crc r ++ rest).length < WAL_HEADER_SIZE := by simp
  have ht : (header crc r ++ rest).take WAL_HEADER_SIZE = header crc r := by
    rw [List.take_append_of_le_length (by simp), List.take_of_length_le (by simp)]
  have hd : (header crc r ++ rest).drop WAL_HEADER_SIZE = rest := by
    rw [← length_header crc r, List.drop_left]
  unfold readRecord
  rw [if_neg hlen, ht, hd]
  simp only [header_magic, header_version, header_dataLen, header_crc, header_type, header_seq,
    header_key, take_header, ne_eq, not_true_eq_false, ↓reduceIte]

/-- A written record is read back, or ends the replay if it is over the
reader's limit. -/
theorem readRecord_encode (r : WalRecord) (tail : Bytes) :
    readRecord crc (encode crc r ++ tail) = if r.Readable then .record r.stored tail else .stop := by
  rw [encode, List.append_assoc, readRecord_header, take_payload]
  have hlen := length_payload crc r
  by_cases hmax : MAX_DATA_LEN < r.dataLen
  · rw [if_pos hmax, if_neg fun hr => absurd hr.1 (by omega)]
  rw [if_neg hmax]
  by_cases hpos : 0 < r.dataLen
  · have h₁ : ¬ (payload crc r ++ tail).length < r.dataLen + 4 := by
      rw [List.length_append, hlen, if_pos hpos]; omega
    have h₂ : (payload crc r ++ tail).drop (r.dataLen + 4) = tail := by
      rw [List.drop_append_of_le_length (by rw [hlen, if_pos hpos]),
        List.drop_of_length_le (by rw [hlen, if_pos hpos]), List.nil_append]
    rw [if_neg fun h => h₁ h.2, payload_crc crc hpos, if_neg fun h => h.2 rfl, h₂, if_pos hpos]
    by_cases hdel : r.type = .delete
    · rw [if_pos ⟨hdel, hpos⟩, if_neg fun hr => absurd (hr.2 hdel) (by omega)]
    · rw [if_neg fun h => hdel h.1, if_pos ⟨by omega, fun h => absurd h hdel⟩]
      rfl
  · have hpay : payload crc r = [] := by rw [payload, if_neg hpos]
    rw [if_neg fun h => hpos h.1, if_neg fun h => hpos h.1, if_neg fun h => hpos h.2, if_neg hpos,
      if_pos ⟨by omega, fun _ => by omega⟩, hpay]
    rfl

/-- A record cut short ends the replay. -/
theorem readRecord_torn {r : WalRecord} {c : ℕ} (hc : c < (encode crc r).length) :
    readRecord crc ((encode crc r).take c) = .stop := by
  rw [length_encode] at hc
  by_cases hh : c < WAL_HEADER_SIZE
  · unfold readRecord
    rw [if_pos (by rw [List.length_take]; omega)]
  · have hpos : 0 < r.dataLen := by
      by_contra h
      rw [if_neg h] at hc
      simp only [WAL_HEADER_SIZE] at hh
      omega
    rw [if_pos hpos] at hc
    have ht : (encode crc r).take c = header crc r ++ (payload crc r).take (c - WAL_HEADER_SIZE) := by
      rw [encode, List.take_append, List.take_of_length_le (by simp; omega), length_header]
    have hshort : ((payload crc r).take (c - WAL_HEADER_SIZE)).length < r.dataLen + 4 := by
      rw [List.length_take, length_payload, if_pos hpos]
      simp only [WAL_HEADER_SIZE] at hh ⊢
      omega
    rw [ht, readRecord_header]
    split
    · rfl
    · rw [if_pos ⟨hpos, hshort⟩]

/-! ### A whole segment -/

theorem readRecord_shorter {bs rest : Bytes} (h : (readRecord crc bs).rest = some rest) :
    rest.length < bs.length := by
  unfold readRecord at h
  by_cases hlen : bs.length < WAL_HEADER_SIZE
  · simp [hlen, ReadStep.rest] at h
  · have hd : (bs.drop WAL_HEADER_SIZE).length < bs.length := by
      simp only [List.length_drop, WAL_HEADER_SIZE] at hlen ⊢; omega
    have hdd : ∀ n, ((bs.drop WAL_HEADER_SIZE).drop n).length < bs.length := fun n => by
      rw [List.length_drop]; omega
    simp only [if_neg hlen] at h
    -- every branch that goes on goes on from a suffix of what follows the header
    repeat' split at h
    all_goals
      simp only [ReadStep.rest, reduceCtorEq, Option.some.injEq] at h
    all_goals
      subst h
      first | exact hd | exact hdd _

/-- More fuel than the segment is long changes nothing. -/
theorem readRecords_fuel : ∀ (n m : ℕ) (bs : Bytes), bs.length ≤ n → bs.length ≤ m →
    readRecords crc n bs = readRecords crc m bs
  | 0, 0, _, _, _ => rfl
  | 0, m + 1, bs, hn, _ => by
    have : readRecord crc bs = .stop := by
      unfold readRecord; rw [if_pos (by rw [Nat.le_zero.mp hn]; decide)]
    simp [readRecords, this]
  | n + 1, 0, bs, _, hm => by
    have : readRecord crc bs = .stop := by
      unfold readRecord; rw [if_pos (by rw [Nat.le_zero.mp hm]; decide)]
    simp [readRecords, this]
  | n + 1, m + 1, bs, hn, hm => by
    simp only [readRecords]
    cases hr : readRecord crc bs with
    | stop => rfl
    | skip rest =>
      have : rest.length < bs.length := readRecord_shorter crc (by rw [hr]; rfl)
      exact readRecords_fuel n m rest (by omega) (by omega)
    | record r rest =>
      have : rest.length < bs.length := readRecord_shorter crc (by rw [hr]; rfl)
      simp only [readRecords_fuel n m rest (by omega) (by omega)]

theorem segmentRecords_of_stop {bs : Bytes} (h : readRecord crc bs = .stop) : segmentRecords crc bs = [] := by
  unfold segmentRecords
  cases bs.length with
  | zero => rfl
  | succ n => simp [readRecords, h]

/-- One round of reading a segment, in which as many are left as its rest has bytes. -/
theorem segmentRecords_step {bs rest : Bytes} (h : (readRecord crc bs).rest = some rest) :
    segmentRecords crc bs = readRecords crc (bs.length + 1) bs ∧
      readRecords crc bs.length rest = segmentRecords crc rest := by
  have hlt : rest.length < bs.length := readRecord_shorter crc h
  exact ⟨readRecords_fuel crc bs.length (bs.length + 1) bs le_rfl (Nat.le_succ _),
    readRecords_fuel crc _ _ rest hlt.le le_rfl⟩

theorem segmentRecords_skip {bs rest : Bytes} (h : readRecord crc bs = .skip rest) :
    segmentRecords crc bs = segmentRecords crc rest := by
  obtain ⟨hround, hrest⟩ := segmentRecords_step crc (show (readRecord crc bs).rest = some rest by rw [h]; rfl)
  rw [hround, ← hrest]
  simp only [readRecords, h]

theorem segmentRecords_record {bs rest : Bytes} {r : WalRecord} (h : readRecord crc bs = .record r rest) :
    segmentRecords crc bs = r :: segmentRecords crc rest := by
  obtain ⟨hround, hrest⟩ := segmentRecords_step crc (show (readRecord crc bs).rest = some rest by rw [h]; rfl)
  rw [hround, ← hrest]
  simp only [readRecords, h]

/-- One record, then the rest of the segment. -/
theorem segmentRecords_encode (r : WalRecord) (tail : Bytes) :
    segmentRecords crc (encode crc r ++ tail) =
      if r.Readable then r.stored :: segmentRecords crc tail else [] := by
  have hread := readRecord_encode crc r tail
  by_cases h : r.Readable
  · rw [if_pos h] at hread ⊢
    exact segmentRecords_record crc hread
  · rw [if_neg h] at hread ⊢
    exact segmentRecords_of_stop crc hread

/-- A segment replays as the records written to it, up to the first one the
reader refuses; after the last of them it goes on with what follows. -/
theorem segmentRecords_encodeAll (tail : Bytes) : ∀ rs : List WalRecord,
    segmentRecords crc (encodeAll crc rs ++ tail) =
      (rs.takeWhile (·.Readable)).map WalRecord.stored ++
        if ∀ r ∈ rs, r.Readable then segmentRecords crc tail else []
  | [] => by simp [encodeAll]
  | r :: rs => by
    have ih := segmentRecords_encodeAll tail rs
    rw [encodeAll, List.flatMap_cons, List.append_assoc, segmentRecords_encode]
    by_cases hr : r.Readable
    · rw [if_pos hr]
      change r.stored :: segmentRecords crc (encodeAll crc rs ++ tail) = _
      rw [ih]
      simp [hr]
    · simp [hr]

end Codec

end Wal
end Lsm
end Amind
