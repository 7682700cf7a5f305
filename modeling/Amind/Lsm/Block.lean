/-
# Data blocks

A block is the number of its entries followed by the entries (the key, the
length of the value and the value), compressed, behind its size before it was
compressed. `reader_encodeBlock` says that a reader of a block has its entries,
each at its index, if the block is not longer than a reader accepts.

LZ4 is a parameter; `Lz4.Lawful` is what is used of it.
-/
import Amind.Lib.Bisect
import Amind.Lib.Keyed
import Amind.Lib.LittleEndian
import Amind.Lsm.MemTable

namespace Amind
namespace Lsm

open LittleEndian

inductive ExnKind
  | invalidArgument
  | logicError
  | runtimeError
  | outOfRange
  | lengthError
  /-- A division by zero. -/
  | trap
  deriving DecidableEq, Repr

/-- An exception. -/
structure Exn where
  kind : ExnKind
  what : String
  deriving DecidableEq, Repr

section Bind

variable {α β : Type} {f : α → Except Exn β}

theorem ok_bind (a : α) : (Except.ok a >>= f) = f a := rfl

theorem error_bind (e : Exn) : (Except.error e >>= f) = .error e := rfl

end Bind

/-! ### Compression -/

def LZ4_MAX_INPUT_SIZE : ℕ := 0x7E000000

/-- LZ4: `compress` into a buffer that is large enough, and `decompress` into
one of the size that is given. -/
structure Lz4 where
  compress : Bytes → Bytes
  decompress : Bytes → ℕ → Option Bytes

def compressBound (n : ℕ) : ℕ := n + n / 255 + 16

structure Lz4.Lawful (lz : Lz4) : Prop where
  ne_nil : ∀ data : Bytes, data.length ≤ LZ4_MAX_INPUT_SIZE → lz.compress data ≠ []
  length_le : ∀ data : Bytes, data.length ≤ LZ4_MAX_INPUT_SIZE →
    (lz.compress data).length ≤ compressBound data.length
  decompress : ∀ data : Bytes, data.length ≤ LZ4_MAX_INPUT_SIZE →
    lz.decompress (lz.compress data) data.length = some data

/-! ### Building a block -/

/-- An entry of a block. -/
def entryBytes (e : Key × Bytes) : Bytes := toLE 8 e.1.toNat ++ (toLE 4 e.2.length ++ e.2)

/-- A block before it is compressed. -/
def blockBytes (entries : List (Key × Bytes)) : Bytes := toLE 4 entries.length ++ entries.flatMap entryBytes

structure BlockBuilder where
  entries : List (Key × Bytes)
  uncompressedSize : ℕ
  firstKey : Key

namespace BlockBuilder

/-- Blocks are finished once they have this size. -/
def DATA_BLOCK_SIZE : ℕ := 4 * 1024

def new : BlockBuilder := ⟨[], 4, 0⟩

def add (b : BlockBuilder) (key : Key) (value : Bytes) : BlockBuilder where
  entries := b.entries ++ [(key, value)]
  uncompressedSize := b.uncompressedSize + (8 + 4 + value.length)
  firstKey := if b.entries = [] then key else b.firstKey

def isFull (b : BlockBuilder) : Bool := DATA_BLOCK_SIZE ≤ b.uncompressedSize

/-- The block, compressed. Its size is taken as an `int`. -/
def finish (lz : Lz4) (b : BlockBuilder) : Except Exn Bytes :=
  let uncompressed := blockBytes b.entries
  let size := uncompressed.length % 2 ^ 32
  -- there is no room for what is too long
  if LZ4_MAX_INPUT_SIZE < size then .error ⟨.runtimeError, "LZ4 compression failed"⟩
  else
    let compressed := lz.compress (uncompressed.take size)
    if compressed = [] then .error ⟨.runtimeError, "LZ4 compression failed"⟩
    else .ok (toLE 4 uncompressed.length ++ compressed)

end BlockBuilder

/-! ### Reading a block -/

structure BlockReader where
  decompressed : Bytes
  entryCount : ℕ
  entryOffsets : List ℕ

namespace BlockReader

/-- What a block may have before it is compressed. -/
def MAX_UNCOMPRESSED : ℕ := 64 * 1024 * 1024

/-- Where `n` entries from `offset` on start. -/
def offsets (d : Bytes) : ℕ → ℕ → Except Exn (List ℕ)
  | 0, _ => .ok []
  | n + 1, offset =>
    if d.length < offset + 12 then .error ⟨.invalidArgument, "Block data truncated at entry header"⟩
    else
      match offsets d n (offset + 8 + 4 + field d (offset + 8) 4) with
      | .ok rest => .ok (offset :: rest)
      | .error e => .error e

def parseEntries (d : Bytes) : Except Exn BlockReader :=
  if d.length < 4 then .error ⟨.invalidArgument, "Block data too small for entry count"⟩
  else
    match offsets d (field d 0 4) 4 with
    | .ok offs => .ok ⟨d, field d 0 4, offs⟩
    | .error e => .error e

def new (lz : Lz4) (data : Bytes) : Except Exn BlockReader :=
  if data.length < 4 then .error ⟨.invalidArgument, "Compressed block too small"⟩
  else
    let size := field data 0 4
    if size = 0 ∨ MAX_UNCOMPRESSED < size then
      .error ⟨.invalidArgument, "Invalid uncompressed size in block header"⟩
    else
      match lz.decompress (data.drop 4) size with
      | none => .error ⟨.runtimeError, "LZ4 decompression failed"⟩
      | some d =>
        if d.length ≠ size then .error ⟨.runtimeError, "LZ4 decompression failed"⟩
        else parseEntries d

variable (r : BlockReader)

def keyAt (i : ℕ) : Key := UInt64.ofNat (field r.decompressed (r.entryOffsets.getD i 0) 8)

def entryAt (i : ℕ) : Except Exn (Key × Bytes) :=
  if r.entryCount ≤ i then .error ⟨.outOfRange, "Block entry index out of range"⟩
  else
    let offset := r.entryOffsets.getD i 0
    .ok (r.keyAt i, slice r.decompressed (offset + 8 + 4) (field r.decompressed (offset + 8) 4))

/-- Binary search over the entries. -/
def findKey (key : Key) : ℤ := Bisect.find r.keyAt key r.entryCount 0 ((r.entryCount : ℤ) - 1)

end BlockReader

/-! ### A finished block is read back -/

theorem length_entryBytes (e : Key × Bytes) : (entryBytes e).length = 12 + e.2.length := by
  simp only [entryBytes, List.length_append, length_toLE]
  omega

theorem length_blockBytes (entries : List (Key × Bytes)) :
    (blockBytes entries).length = 4 + (entries.flatMap entryBytes).length := by
  rw [blockBytes, List.length_append, length_toLE]

/-- A reader with the entries. -/
structure BlockReader.Has (r : BlockReader) (entries : List (Key × Bytes)) : Prop where
  count : r.entryCount = entries.length
  entryAt : ∀ i e, entries[i]? = some e → r.entryAt i = .ok e
  keyAt : ∀ i e, entries[i]? = some e → r.keyAt i = e.1

section Parse

/-- Where the entry with the index starts. -/
def entryStart (entries : List (Key × Bytes)) (i : ℕ) : ℕ := ((entries.take i).flatMap entryBytes).length

theorem offsets_flatMap {d : Bytes} : ∀ (entries : List (Key × Bytes)) (pre : Bytes),
    d = pre ++ entries.flatMap entryBytes → d.length < 2 ^ 32 →
    BlockReader.offsets d entries.length pre.length =
      .ok ((List.range entries.length).map fun i => pre.length + entryStart entries i)
  | [], _, _, _ => rfl
  | e :: entries, pre, hd, hlen => by
    have hsplit : d = (pre ++ entryBytes e) ++ entries.flatMap entryBytes := by
      rw [hd, List.flatMap_cons, List.append_assoc]
    have hlong : pre.length + (12 + e.2.length) ≤ d.length := by
      rw [hsplit, List.length_append, List.length_append, length_entryBytes]
      omega
    have hsize : field d (pre.length + 8) 4 = e.2.length := by
      rw [field_eq (p := pre ++ toLE 8 e.1.toNat) (m := toLE 4 e.2.length)]
      · exact ofLE_toLE_of_lt (by omega)
      · rw [hsplit, entryBytes]
        exact ⟨e.2 ++ entries.flatMap entryBytes, by simp only [List.append_assoc]⟩
      · rw [List.length_append, length_toLE]
      · exact length_toLE _ _
    have hnext : pre.length + 8 + 4 + e.2.length = (pre ++ entryBytes e).length := by
      rw [List.length_append, length_entryBytes]
      omega
    have ih := offsets_flatMap entries (pre ++ entryBytes e) hsplit hlen
    have hshift : ((List.range entries.length).map fun i => (pre ++ entryBytes e).length + entryStart entries i) =
        (List.range entries.length).map ((fun i => pre.length + entryStart (e :: entries) i) ∘ Nat.succ) := by
      refine List.map_congr_left fun i _ => ?_
      simp only [entryStart, Function.comp_apply, Nat.succ_eq_add_one, List.take_succ_cons, List.flatMap_cons,
        List.length_append]
      omega
    rw [List.length_cons, BlockReader.offsets, if_neg (by omega), hsize, hnext, ih, List.range_succ_eq_map,
      List.map_cons, List.map_map, hshift]
    rfl

theorem length_le_flatMap : ∀ entries : List (Key × Bytes), entries.length ≤ (entries.flatMap entryBytes).length
  | [] => le_rfl
  | e :: entries => by
    have ih := length_le_flatMap entries
    rw [List.flatMap_cons, List.length_append, length_entryBytes, List.length_cons]
    omega

/-- An entry stands in its block where it starts. -/
theorem entry_infix {entries : List (Key × Bytes)} {i : ℕ} {e : Key × Bytes} (h : entries[i]? = some e) :
    ∃ pre post, blockBytes entries = pre ++ entryBytes e ++ post ∧ pre.length = 4 + entryStart entries i := by
  obtain ⟨hi, hget⟩ := List.getElem?_eq_some_iff.mp h
  have hcut : entries = entries.take i ++ e :: entries.drop (i + 1) := by
    rw [← hget, List.getElem_cons_drop, List.take_append_drop]
  refine ⟨toLE 4 entries.length ++ (entries.take i).flatMap entryBytes,
    (entries.drop (i + 1)).flatMap entryBytes, ?_, ?_⟩
  · rw [blockBytes]
    conv_lhs => rw [hcut]
    rw [List.flatMap_append, List.flatMap_cons, ← hcut]
    simp only [List.append_assoc]
  · rw [List.length_append, length_toLE]
    rfl

/-- The fields of an entry are read back from where it starts. -/
theorem fields_entry {entries : List (Key × Bytes)} {i : ℕ} {e : Key × Bytes} (h : entries[i]? = some e)
    (hlen : (blockBytes entries).length < 2 ^ 32) :
    UInt64.ofNat (field (blockBytes entries) (4 + entryStart entries i) 8) = e.1 ∧
      field (blockBytes entries) (4 + entryStart entries i + 8) 4 = e.2.length ∧
      slice (blockBytes entries) (4 + entryStart entries i + 8 + 4) e.2.length = e.2 := by
  obtain ⟨pre, post, hd, hpre⟩ := entry_infix h
  have hlong := congrArg List.length hd
  rw [List.length_append, List.length_append, length_entryBytes] at hlong
  rw [← hpre]
  refine ⟨?_, ?_, ?_⟩
  · rw [field_eq _ rfl (length_toLE _ _), ofLE_toLE_of_lt e.1.toNat_lt, UInt64.ofNat_toNat]
    exact ⟨toLE 4 e.2.length ++ e.2 ++ post, by rw [hd, entryBytes]; simp only [List.append_assoc]⟩
  · rw [field_eq (p := pre ++ toLE 8 e.1.toNat) (m := toLE 4 e.2.length) _ _ (length_toLE _ _),
      ofLE_toLE_of_lt (by omega)]
    · exact ⟨e.2 ++ post, by rw [hd, entryBytes]; simp only [List.append_assoc]⟩
    · rw [List.length_append, length_toLE]
  · refine slice_eq (p := pre ++ toLE 8 e.1.toNat ++ toLE 4 e.2.length) ?_ ?_ rfl
    · exact ⟨post, by rw [hd, entryBytes]; simp only [List.append_assoc]⟩
    · rw [List.length_append, List.length_append, length_toLE, length_toLE]

/-- The reader of a block that was not compressed. -/
theorem has_parseEntries {entries : List (Key × Bytes)} (hlen : (blockBytes entries).length < 2 ^ 32) :
    ∃ r, BlockReader.parseEntries (blockBytes entries) = .ok r ∧ r.Has entries := by
  have hlength := length_blockBytes entries
  have hle := length_le_flatMap entries
  have hfield : field (blockBytes entries) 0 4 = entries.length := field_zero (by omega)
  have hoffsets : BlockReader.offsets (blockBytes entries) entries.length 4 = _ :=
    offsets_flatMap entries (toLE 4 entries.length) rfl hlen
  rw [length_toLE] at hoffsets
  have hat : ∀ i e, entries[i]? = some e →
      ((List.range entries.length).map fun i => 4 + entryStart entries i).getD i 0 = 4 + entryStart entries i := by
    intro i e h
    obtain ⟨hi, -⟩ := List.getElem?_eq_some_iff.mp h
    rw [List.getD_eq_getElem?_getD, List.getElem?_map, List.getElem?_range hi]
    rfl
  refine ⟨⟨blockBytes entries, entries.length, (List.range entries.length).map fun i => 4 + entryStart entries i⟩,
    ?_, rfl, fun i e h => ?_, fun i e h => ?_⟩
  · rw [BlockReader.parseEntries, if_neg (by omega), hfield, hoffsets]
  · obtain ⟨hkey, hsize, hvalue⟩ := fields_entry h hlen
    obtain ⟨hi, -⟩ := List.getElem?_eq_some_iff.mp h
    simp only [BlockReader.entryAt, BlockReader.keyAt, if_neg (Nat.not_le.mpr hi), hat i e h, hkey, hsize, hvalue]
  · simp only [BlockReader.keyAt, hat i e h, (fields_entry h hlen).1]

end Parse

/-- A block as it is in a file, if its size fits an `int`. -/
def encodeBlock (lz : Lz4) (entries : List (Key × Bytes)) : Bytes :=
  toLE 4 (blockBytes entries).length ++ lz.compress (blockBytes entries)

section Encode

variable {lz : Lz4} {entries : List (Key × Bytes)}

theorem blockBytes_small (hlen : (blockBytes entries).length ≤ BlockReader.MAX_UNCOMPRESSED) :
    (blockBytes entries).length < 2 ^ 32 ∧ (blockBytes entries).length ≤ LZ4_MAX_INPUT_SIZE := by
  have hmax : BlockReader.MAX_UNCOMPRESSED = 67108864 := rfl
  have hinput : LZ4_MAX_INPUT_SIZE = 2113929216 := rfl
  omega

theorem finish_eq (hlz : lz.Lawful) {b : BlockBuilder}
    (hlen : (blockBytes b.entries).length ≤ BlockReader.MAX_UNCOMPRESSED) :
    b.finish lz = .ok (encodeBlock lz b.entries) := by
  obtain ⟨hlt, hsmall⟩ := blockBytes_small hlen
  simp only [BlockBuilder.finish, Nat.mod_eq_of_lt hlt, List.take_length, if_neg (Nat.not_lt.mpr hsmall),
    if_neg (hlz.ne_nil _ hsmall), encodeBlock]

theorem length_encodeBlock (hlz : lz.Lawful) (hlen : (blockBytes entries).length ≤ BlockReader.MAX_UNCOMPRESSED) :
    4 < (encodeBlock lz entries).length ∧ (encodeBlock lz entries).length < 2 ^ 27 := by
  obtain ⟨-, hsmall⟩ := blockBytes_small hlen
  have hmax : BlockReader.MAX_UNCOMPRESSED = 67108864 := rfl
  have hbound := hlz.length_le _ hsmall
  have hpos := List.length_pos_of_ne_nil (hlz.ne_nil _ hsmall)
  unfold compressBound at hbound
  rw [encodeBlock, List.length_append, length_toLE]
  omega

/-- **A block is read back**, if it is not longer than a reader accepts. -/
theorem reader_encodeBlock (hlz : lz.Lawful) (hlen : (blockBytes entries).length ≤ BlockReader.MAX_UNCOMPRESSED) :
    ∃ r, BlockReader.new lz (encodeBlock lz entries) = .ok r ∧ r.Has entries := by
  obtain ⟨hlt, hsmall⟩ := blockBytes_small hlen
  have hlength := length_blockBytes entries
  have hlong := (length_encodeBlock hlz hlen).1
  obtain ⟨r, hr, hhas⟩ := has_parseEntries hlt
  refine ⟨r, ?_, hhas⟩
  have hsize : field (encodeBlock lz entries) 0 4 = (blockBytes entries).length := field_zero hlt
  have hdrop : (encodeBlock lz entries).drop 4 = lz.compress (blockBytes entries) := List.drop_left' (length_toLE _ _)
  unfold BlockReader.new
  rw [if_neg (by omega)]
  dsimp only
  rw [hsize, if_neg (by omega), hdrop, hlz.decompress _ hsmall]
  dsimp only
  rw [if_neg (not_not.mpr rfl), hr]

end Encode

/-- The search in a block with ascending keys. -/
theorem BlockReader.Has.findKey {r : BlockReader} {entries : List (Key × Bytes)} (h : r.Has entries)
    (hasc : Keyed.Ascending entries) (key : Key) :
    (r.findKey key = -1 ∧ entries.lookup key = none) ∨
      ∃ (i : ℕ) (v : Bytes), r.findKey key = i ∧ r.entryAt i = .ok (key, v) ∧ entries.lookup key = some v := by
  have hkeys : Bisect.Ascends r.keyAt entries.length := by
    intro i j hij hj
    have hi : i < entries.length := hij.trans hj
    rw [h.keyAt i _ (List.getElem?_eq_getElem hi), h.keyAt j _ (List.getElem?_eq_getElem hj)]
    exact List.pairwise_iff_getElem.mp hasc i j hi hj hij
  have hspec := Bisect.find_spec (k := key) hkeys entries.length 0 ((entries.length : ℤ) - 1) (.start _)
    (fun i _ hi => by omega) (by omega)
  unfold BlockReader.findKey
  rw [h.count]
  rcases hspec with ⟨hnone, hne⟩ | ⟨i, hi, hfind, hk⟩
  · refine .inl ⟨hnone, List.lookup_eq_none_iff.mpr fun e he => ?_⟩
    obtain ⟨i, hi, rfl⟩ := List.mem_iff_getElem.mp he
    have hkey := hne i hi
    rw [h.keyAt i _ (List.getElem?_eq_getElem hi)] at hkey
    simpa using hkey.symm
  · have hget := List.getElem?_eq_getElem hi
    have hkey : entries[i].1 = key := (h.keyAt i _ hget).symm.trans hk
    refine .inr ⟨i, entries[i].2, hfind, ?_, ?_⟩
    · rw [h.entryAt i _ hget, ← hkey]
    · exact hasc.lookup (hkey ▸ List.getElem_mem hi)

end Lsm
end Amind
