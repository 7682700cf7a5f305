/-
# What a table reader reads

A table file may hold anything. The reader takes offsets and sizes from the
footer, from the index and from the blocks, and checks them before it reads.
Here every read says what it reads, so that one outside of the file or of the
decompressed block does not go unnoticed, and neither does a remainder by zero.

The checks leave three things out. A sum of an offset and a size wraps around,
so that an offset far behind the file passes. A Bloom filter may have hash
functions and no bits. And of an entry of a block only the first twelve bytes
are checked; that its value ends inside is checked with the next entry, and the
last has none. Here is what opening a file and a `get` come to; the walks over all
entries follow, and that nothing else goes wrong.

LZ4 is a parameter, and nothing is assumed of it: what it answers is compared
with the size in the block.

Key definitions: `Bounded.load`, `Bounded.get`, `Bounded.scan`, `Bounded.forEach`,
`Bounded.cursorAfter`.
-/
import Amind.Lib.Checked
import Amind.Lsm.SSTableFile

namespace Amind
namespace Lsm
namespace Bounded

open LittleEndian
open Checked (ofExcept within walk Safe)

/-! ### The Bloom filter -/

/-- The filter in `size` bytes from `offset` on. -/
def deserialize (data : Bytes) (offset size : ℕ) : Checked Exn BloomFilter :=
  if size < 4 then .error (.thrown ⟨.invalidArgument, "BloomFilter data too small: need at least 4 bytes"⟩)
  else do
    within data.length offset 4
    within data.length (offset + 4) (size - 4)
    .ok ⟨slice data (offset + 4) (size - 4), (size - 4) * 8, field data offset 4⟩

/-- The hash functions from `i` on, as many as `n`. -/
def testBits (hash : Key → UInt64 → UInt64) (f : BloomFilter) (key : Key) : ℕ → ℕ → Checked Exn Bool
  | 0, _ => .ok true
  | n + 1, i =>
    if f.numBits = 0 then .error .divByZero
    else do
      let bitIndex := (hash key 0 + UInt64.ofNat i * hash key 1).toNat % f.numBits
      within f.bits.length (bitIndex / 8) 1
      if BloomFilter.testBit f.bits bitIndex then testBits hash f key n (i + 1) else .ok false

def mayContain (hash : Key → UInt64 → UInt64) (f : BloomFilter) (key : Key) : Checked Exn Bool :=
  testBits hash f key f.numHashFuncs 0

/-! ### Blocks -/

/-- Where `n` entries from `offset` on start. -/
def offsets (d : Bytes) : ℕ → ℕ → Checked Exn (List ℕ)
  | 0, _ => .ok []
  | n + 1, offset =>
    if d.length < offset + 12 then .error (.thrown ⟨.invalidArgument, "Block data truncated at entry header"⟩)
    else do
      within d.length (offset + 8) 4
      let rest ← offsets d n (offset + 8 + 4 + field d (offset + 8) 4)
      .ok (offset :: rest)

def parseEntries (d : Bytes) : Checked Exn BlockReader :=
  if d.length < 4 then .error (.thrown ⟨.invalidArgument, "Block data too small for entry count"⟩)
  else do
    within d.length 0 4
    let offs ← offsets d (field d 0 4) 4
    .ok ⟨d, field d 0 4, offs⟩

/-- The block in `size` bytes from `offset` on. -/
def newBlock (lz : Lz4) (data : Bytes) (offset size : ℕ) : Checked Exn BlockReader :=
  if size < 4 then .error (.thrown ⟨.invalidArgument, "Compressed block too small"⟩)
  else do
    within data.length offset 4
    let uncompressedSize := field data offset 4
    if uncompressedSize = 0 ∨ BlockReader.MAX_UNCOMPRESSED < uncompressedSize then
      .error (.thrown ⟨.invalidArgument, "Invalid uncompressed size in block header"⟩)
    else do
      within data.length (offset + 4) (size - 4)
      match lz.decompress (slice data (offset + 4) (size - 4)) uncompressedSize with
      | none => .error (.thrown ⟨.runtimeError, "LZ4 decompression failed"⟩)
      | some d =>
        if d.length ≠ uncompressedSize then .error (.thrown ⟨.runtimeError, "LZ4 decompression failed"⟩)
        else parseEntries d

variable (b : BlockReader)

/-- Where an entry starts, and the size of its value. -/
def offsetAt (i : ℕ) : ℕ := b.entryOffsets.getD i 0

def sizeAt (i : ℕ) : ℕ := field b.decompressed (offsetAt b i + 8) 4

/-- The key of an entry, and where its value is. -/
def entryAt (i : ℕ) : Checked Exn (Key × ℕ × ℕ) :=
  if b.entryCount ≤ i then .error (.thrown ⟨.outOfRange, "Block entry index out of range"⟩)
  else do
    within b.entryOffsets.length i 1
    within b.decompressed.length (offsetAt b i) 8
    within b.decompressed.length (offsetAt b i + 8) 4
    .ok (b.keyAt i, offsetAt b i + 8 + 4, sizeAt b i)

/-- Read a value. -/
def valueOf (span : ℕ × ℕ) : Checked Exn Bytes := do
  within b.decompressed.length span.1 span.2
  .ok (slice b.decompressed span.1 span.2)

def keyOf (i : ℕ) : Checked Exn Key := do
  within b.entryOffsets.length i 1
  within b.decompressed.length (offsetAt b i) 8
  .ok (b.keyAt i)

def findKey (key : Key) : Checked Exn ℤ := Bisect.findM (keyOf b) key b.entryCount 0 ((b.entryCount : ℤ) - 1)

/-! ### Tables -/

def indexEntryAt (data : Bytes) (offset : ℕ) : Checked Exn IndexEntry := do
  within data.length offset IndexEntry.SERIALIZED_SIZE
  .ok (IndexEntry.readFrom (data.drop offset))

def load (path : String) (data : Bytes) : Checked Exn SSTableReader :=
  if data.length < SSTableFooter.SIZE then .error (.thrown ⟨.invalidArgument, "SSTable file too small: " ++ path⟩)
  else
    let footer := SSTableFooter.read (data.drop (data.length - SSTableFooter.SIZE))
    if footer.isValid = false then .error (.thrown ⟨.invalidArgument, "Invalid SSTable footer (bad magic or version)"⟩)
    else if data.length - SSTableFooter.SIZE < (footer.indexOffset + footer.indexSize) % 2 ^ 64 then
      .error (.thrown ⟨.invalidArgument, "Index block extends beyond file bounds"⟩)
    else do
      let indexEntries ← (List.range (footer.indexSize / IndexEntry.SERIALIZED_SIZE)).mapM fun i =>
        indexEntryAt data (footer.indexOffset + i * IndexEntry.SERIALIZED_SIZE)
      if data.length - SSTableFooter.SIZE < (footer.bloomFilterOffset + footer.bloomFilterSize) % 2 ^ 64 then
        .error (.thrown ⟨.invalidArgument, "Bloom filter block extends beyond file bounds"⟩)
      else do
        let bloomFilter ← deserialize data footer.bloomFilterOffset footer.bloomFilterSize
        .ok { data := data, footer := footer, indexEntries := indexEntries, bloomFilter := bloomFilter }

variable (lz : Lz4) (hash : Key → UInt64 → UInt64) (r : SSTableReader)

def firstKeyOf (i : ℕ) : Checked Exn Key := do
  within r.indexEntries.length i 1
  .ok (r.firstKeyAt i)

def findBlockIndex (key : Key) : Checked Exn ℤ :=
  if r.indexEntries = [] then .ok (-1)
  else Bisect.lastLeM (firstKeyOf r) key r.indexEntries.length 0 ((r.indexEntries.length : ℤ) - 1) (-1)

def readBlock (e : IndexEntry) : Checked Exn BlockReader :=
  if r.data.length < (e.offset + e.compressedSize) % 2 ^ 64 then
    .error (.thrown ⟨.runtimeError, "Data block extends beyond file bounds"⟩)
  else newBlock lz r.data e.offset e.compressedSize

def get (key : Key) : Checked Exn (Option Bytes) := do
  let may ← mayContain hash r.bloomFilter key
  if may = false then .ok none
  else do
    let blockIdx ← findBlockIndex r key
    if blockIdx < 0 then .ok none
    else do
      within r.indexEntries.length blockIdx.toNat 1
      let block ← readBlock lz r (r.indexEntries.getD blockIdx.toNat default)
      let entryIdx ← findKey block key
      if entryIdx < 0 then .ok none
      else do
        let entry ← entryAt block entryIdx.toNat
        let value ← valueOf block entry.2
        .ok (some value)

/-- One turn of the inner loop of a scan. -/
def scanEntry (minKey maxKey : Key) (i : ℕ) : Checked Exn (List (Key × Bytes) × Bool) := do
  let entry ← entryAt b i
  if maxKey < entry.1 then .ok ([], false)
  else if minKey ≤ entry.1 then do
    let value ← valueOf b entry.2
    .ok ([(entry.1, value)], true)
  else .ok ([], true)

/-- One turn of the outer loop. -/
def scanBlock (minKey maxKey : Key) (e : IndexEntry) : Checked Exn (List (Key × Bytes) × Bool) :=
  if maxKey < e.firstKey then .ok ([], false)
  else do
    let block ← readBlock lz r e
    walk (scanEntry block minKey maxKey) (List.range block.entryCount)

/-- The callback is given the bytes of each value. -/
def scan (minKey maxKey : Key) : Checked Exn (List (Key × Bytes)) :=
  if r.indexEntries = [] ∨ maxKey < minKey then .ok []
  else do
    let start ← findBlockIndex r minKey
    let p ← walk (scanBlock lz r minKey maxKey) (r.indexEntries.drop start.toNat)
    .ok p.1

def eachEntry (i : ℕ) : Checked Exn (List (Key × Bytes) × Bool) := do
  let entry ← entryAt b i
  let value ← valueOf b entry.2
  .ok ([(entry.1, value)], true)

def eachBlock (e : IndexEntry) : Checked Exn (List (Key × Bytes) × Bool) := do
  let block ← readBlock lz r e
  walk (eachEntry block) (List.range block.entryCount)

def forEach : Checked Exn (List (Key × Bytes)) := do
  let p ← walk (eachBlock lz r) r.indexEntries
  .ok p.1

/-! ### Cursors -/

/-- The cursor at an entry of a block. -/
def loadEntry (c : SSTableCursor) (block : BlockReader) : Checked Exn SSTableCursor := do
  let entry ← entryAt block c.entryIdx
  let value ← valueOf block entry.2
  .ok { c with currentBlock := some block, current := (entry.1, value), valid := true }

def loadCurrentEntry (c : SSTableCursor) : Checked Exn SSTableCursor :=
  match c.reader with
  | none => .ok { c with valid := false }
  | some r =>
    match r.indexEntries[c.blockIdx]? with
    | none => .ok { c with valid := false }
    | some e => do
      let block ← readBlock lz r e
      if block.entryCount ≤ c.entryIdx then .ok { c with currentBlock := some block, valid := false }
      else loadEntry c block

/-- On to the next block. -/
def nextBlock (c : SSTableCursor) : Checked Exn SSTableCursor :=
  let c := { c with blockIdx := c.blockIdx + 1, entryIdx := 0, currentBlock := none }
  match c.reader with
  | none => .ok { c with valid := false }
  | some r => if r.indexEntries.length ≤ c.blockIdx then .ok { c with valid := false } else loadCurrentEntry lz c

def next (c : SSTableCursor) : Checked Exn SSTableCursor :=
  if c.valid = false then .ok c
  else
    let c := { c with entryIdx := c.entryIdx + 1 }
    match c.currentBlock with
    | some block => if c.entryIdx < block.entryCount then loadEntry c block else nextBlock lz c
    | none => nextBlock lz c

def cursor : Checked Exn SSTableCursor :=
  if r.indexEntries = [] then .ok SSTableCursor.none
  else loadCurrentEntry lz ⟨some r, 0, 0, false, (0, []), none⟩

/-- A cursor that has gone on `n` times. -/
def cursorAfter : ℕ → Checked Exn SSTableCursor
  | 0 => cursor lz r
  | n + 1 => do
    let c ← cursorAfter n
    next lz c

/-! ### What fits -/

/-- A range whose end is computed in 64 bits and compared with `limit`: it is refused,
or too short to be read, or its end does not wrap around. -/
def RangeFits (limit offset size least : ℕ) : Prop :=
  (offset + size) % 2 ^ 64 ≤ limit → size < least ∨ offset + size < 2 ^ 64

/-- The index and the filter of a file. An index without entries is not read, and a
filter of less than four bytes is refused. -/
def OpenFits (data : Bytes) : Prop :=
  let footer := SSTableFooter.read (data.drop (data.length - SSTableFooter.SIZE))
  SSTableFooter.SIZE ≤ data.length → footer.isValid = true →
    (footer.indexOffset + footer.indexSize) % 2 ^ 64 ≤ data.length - SSTableFooter.SIZE →
      (footer.indexSize < IndexEntry.SERIALIZED_SIZE ∨ footer.indexOffset + footer.indexSize < 2 ^ 64) ∧
      RangeFits (data.length - SSTableFooter.SIZE) footer.bloomFilterOffset footer.bloomFilterSize 4

/-- A block of less than four bytes is refused. -/
def BlockFits (e : IndexEntry) : Prop := RangeFits r.data.length e.offset e.compressedSize 4

def ValueFits (i : ℕ) : Prop := offsetAt b i + 8 + 4 + sizeAt b i ≤ b.decompressed.length

/-- The value of the last entry ends inside of the block. -/
def LastFits : Prop := 0 < b.entryCount → ValueFits b (b.entryCount - 1)

section Blocks

/-! ### What is read of a block -/

/-- What parsing leaves: the first twelve bytes of every entry are inside, and the
values of all but the last. -/
structure Parsed (b : BlockReader) : Prop where
  count : b.entryOffsets.length = b.entryCount
  headers : ∀ i < b.entryCount, offsetAt b i + 12 ≤ b.decompressed.length
  values : ∀ i, i + 1 < b.entryCount → ValueFits b i

theorem offsets_eq (d : Bytes) : ∀ n offset : ℕ, offsets d n offset = ofExcept (BlockReader.offsets d n offset)
  | 0, _ => rfl
  | n + 1, offset => by
    unfold offsets BlockReader.offsets
    by_cases h : d.length < offset + 12
    · rw [if_pos h, if_pos h]
      rfl
    · rw [if_neg h, if_neg h, Checked.within_of_le (by omega), Checked.ok_bind, offsets_eq d n]
      cases BlockReader.offsets d n (offset + 8 + 4 + field d (offset + 8) 4) <;> rfl

theorem offsets_spec {d : Bytes} : ∀ {n offset : ℕ} {offs : List ℕ}, BlockReader.offsets d n offset = .ok offs →
    offs.length = n ∧ (0 < n → offs.getD 0 0 = offset) ∧ (∀ i < n, offs.getD i 0 + 12 ≤ d.length) ∧
      ∀ i, i + 1 < n → offs.getD (i + 1) 0 = offs.getD i 0 + 8 + 4 + field d (offs.getD i 0 + 8) 4
  | 0, _, _, h => by
    obtain rfl := Except.ok.inj h
    exact ⟨rfl, fun h => absurd h (lt_irrefl 0), fun i hi => absurd hi (Nat.not_lt_zero i),
      fun i hi => absurd hi (Nat.not_lt_zero _)⟩
  | n + 1, offset, offs, h => by
    unfold BlockReader.offsets at h
    split at h
    · cases h
    · rename_i hle
      split at h
      · rename_i rest hrest
        obtain rfl := Except.ok.inj h
        obtain ⟨hlen, hfirst, hheaders, hnext⟩ := offsets_spec hrest
        refine ⟨congrArg Nat.succ hlen, fun _ => rfl, fun i hi => ?_, fun i hi => ?_⟩
        · cases i with
          | zero => exact Nat.not_lt.mp hle
          | succ i => exact hheaders i (Nat.lt_of_succ_lt_succ hi)
        · cases i with
          | zero => exact hfirst (Nat.lt_of_succ_lt_succ hi)
          | succ i => exact hnext i (Nat.lt_of_succ_lt_succ hi)
      · cases h

theorem parseEntries_eq (d : Bytes) : parseEntries d = ofExcept (BlockReader.parseEntries d) := by
  unfold parseEntries BlockReader.parseEntries
  by_cases h : d.length < 4
  · rw [if_pos h, if_pos h]
    rfl
  · rw [if_neg h, if_neg h, Checked.within_of_le (by omega), Checked.ok_bind, offsets_eq]
    cases BlockReader.offsets d (field d 0 4) 4 <;> rfl

theorem parsed_parseEntries {d : Bytes} {b : BlockReader} (h : BlockReader.parseEntries d = .ok b) : Parsed b := by
  unfold BlockReader.parseEntries at h
  split at h
  · cases h
  · split at h
    · rename_i offs hoffs
      obtain rfl := Except.ok.inj h
      obtain ⟨hlen, -, hheaders, hnext⟩ := offsets_spec hoffs
      refine ⟨hlen, hheaders, fun i hi => ?_⟩
      have hheader := hheaders (i + 1) hi
      have hstart := hnext i hi
      show offs.getD i 0 + 8 + 4 + field d (offs.getD i 0 + 8) 4 ≤ d.length
      omega
    · cases h

theorem parsed_new {lz : Lz4} {data : Bytes} {b : BlockReader} (h : BlockReader.new lz data = .ok b) : Parsed b := by
  unfold BlockReader.new at h
  split at h
  · cases h
  · dsimp only at h
    split at h
    · cases h
    · split at h
      · cases h
      · split at h
        · cases h
        · exact parsed_parseEntries h

/-- A part of a file with a number in front. -/
theorem slice_inside {data : Bytes} {offset size : ℕ} (hsmall : ¬ size < 4) (h : offset + size ≤ data.length) :
    (slice data offset size).length = size ∧ field (slice data offset size) 0 4 = field data offset 4 ∧
      (slice data offset size).drop 4 = slice data (offset + 4) (size - 4) :=
  ⟨length_slice h, field_slice (Nat.le_of_not_lt hsmall), drop_slice data offset size 4⟩

/-- A block that is inside of the file. -/
theorem newBlock_eq (lz : Lz4) {data : Bytes} {offset size : ℕ} (h : size < 4 ∨ offset + size ≤ data.length) :
    newBlock lz data offset size = ofExcept (BlockReader.new lz (slice data offset size)) := by
  have hlen := length_slice_le data offset size
  unfold newBlock BlockReader.new
  by_cases hsmall : size < 4
  · have hshort : (slice data offset size).length < 4 := by omega
    rw [if_pos hsmall, if_pos hshort]
    rfl
  · obtain ⟨hfull, hfield, hrest⟩ := slice_inside hsmall (h.resolve_left hsmall)
    have hbig : ¬(slice data offset size).length < 4 := by omega
    rw [if_neg hsmall, if_neg hbig, Checked.within_of_le (by omega), Checked.ok_bind, hfield, hrest]
    dsimp only
    by_cases hbad : field data offset 4 = 0 ∨ BlockReader.MAX_UNCOMPRESSED < field data offset 4
    · rw [if_pos hbad, if_pos hbad]
      rfl
    · rw [if_neg hbad, if_neg hbad, Checked.within_of_le (by omega), Checked.ok_bind]
      cases lz.decompress (slice data (offset + 4) (size - 4)) (field data offset 4) with
      | none => rfl
      | some d =>
        dsimp only
        by_cases hd : d.length = field data offset 4
        · rw [if_neg (not_not.mpr hd), if_neg (not_not.mpr hd)]
          exact parseEntries_eq d
        · rw [if_pos hd, if_pos hd]
          rfl

/-- A block that is behind the file. -/
theorem newBlock_outside (lz : Lz4) {data : Bytes} {offset size : ℕ} (hsize : 4 ≤ size) (h : data.length < offset + 4) :
    newBlock lz data offset size = .error .outside := by
  unfold newBlock
  rw [if_neg (by omega), Checked.within_of_lt h]
  rfl

variable {b : BlockReader} (hb : Parsed b)
include hb

theorem Parsed.entryAt {i : ℕ} (hi : i < b.entryCount) :
    entryAt b i = .ok (b.keyAt i, offsetAt b i + 8 + 4, sizeAt b i) := by
  have hheader := hb.headers i hi
  unfold Bounded.entryAt
  rw [if_neg (Nat.not_le.mpr hi), Checked.within_of_le (by rw [hb.count]; exact hi), Checked.ok_bind,
    Checked.within_of_le (by omega), Checked.ok_bind, Checked.within_of_le (by omega), Checked.ok_bind]

theorem Parsed.findKey (key : Key) : findKey b key = .ok (b.findKey key) ∧ b.findKey key < b.entryCount := by
  refine Bisect.findM_eq (fun i hi => ?_) _ _ _ le_rfl (by omega)
  have hheader := hb.headers i hi
  unfold keyOf
  rw [Checked.within_of_le (by rw [hb.count]; exact hi), Checked.ok_bind, Checked.within_of_le (by omega),
    Checked.ok_bind]

/-- Only the last value may end outside. -/
theorem Parsed.valueFits_iff {i : ℕ} (hi : i < b.entryCount) : ValueFits b i ↔ (i + 1 = b.entryCount → LastFits b) := by
  by_cases hlast : i + 1 = b.entryCount
  · have heq : b.entryCount - 1 = i := by omega
    unfold LastFits
    rw [heq]
    exact ⟨fun h _ _ => h, fun h => h hlast (by omega)⟩
  · exact iff_of_true (hb.values i (by omega)) fun h => absurd h hlast

omit hb in
theorem valueOf_eq {i : ℕ} (h : ValueFits b i) : valueOf b (offsetAt b i + 8 + 4, sizeAt b i) =
    .ok (slice b.decompressed (offsetAt b i + 8 + 4) (sizeAt b i)) := by
  unfold valueOf
  rw [Checked.within_of_le h, Checked.ok_bind]

omit hb in
theorem safe_valueOf_iff {i : ℕ} : Safe (valueOf b (offsetAt b i + 8 + 4, sizeAt b i)) ↔ ValueFits b i := by
  unfold valueOf
  rw [Checked.safe_bind, Checked.safe_within_iff]
  exact ⟨fun h => h.1, fun h => ⟨h, fun _ _ => trivial⟩⟩

end Blocks

/-! ### What is read of the filter -/

section Filter

variable {hash : Key → UInt64 → UInt64} {f : BloomFilter} {key : Key}

/-- The bytes of a filter are those its bits are in. -/
def Sized (f : BloomFilter) : Prop := f.numBits = f.bits.length * 8

theorem testBits_eq (hf : Sized f) (hbits : f.numBits ≠ 0) : ∀ n i : ℕ, testBits hash f key n i =
    .ok ((List.range' i n).all fun j => BloomFilter.testBit f.bits
      ((hash key 0 + UInt64.ofNat j * hash key 1).toNat % f.numBits))
  | 0, _ => rfl
  | n + 1, i => by
    have hlt : (hash key 0 + UInt64.ofNat i * hash key 1).toNat % f.numBits < f.bits.length * 8 :=
      hf ▸ Nat.mod_lt _ (Nat.pos_of_ne_zero hbits)
    unfold testBits
    rw [if_neg hbits, List.range'_succ, List.all_cons]
    dsimp only
    rw [Checked.within_of_le (by omega), Checked.ok_bind]
    by_cases htest : BloomFilter.testBit f.bits ((hash key 0 + UInt64.ofNat i * hash key 1).toNat % f.numBits) = true
    · rw [if_pos htest, htest, Bool.true_and]
      exact testBits_eq hf hbits n (i + 1)
    · rw [if_neg htest, Bool.eq_false_iff.mpr htest, Bool.false_and]

/-- A filter with bits, or without hash functions, divides by none. -/
theorem mayContain_eq (hf : Sized f) (h : f.numBits ≠ 0 ∨ f.numHashFuncs = 0) :
    mayContain hash f key = ofExcept (f.mayContain hash key) := by
  unfold mayContain BloomFilter.mayContain BloomFilter.checkBits BloomFilter.bitIndices
  rw [if_neg (by omega), List.all_map]
  by_cases hbits : f.numBits = 0
  · have hnone := h.resolve_left (not_not.mpr hbits)
    rw [hnone]
    rfl
  · rw [testBits_eq hf hbits, List.range_eq_range']
    rfl

theorem mayContain_divides (hbits : f.numBits = 0) (h : f.numHashFuncs ≠ 0) :
    mayContain hash f key = .error .divByZero := by
  obtain ⟨n, hn⟩ := Nat.exists_eq_succ_of_ne_zero h
  unfold mayContain
  rw [hn, testBits, if_pos hbits]

end Filter

/-! ### Opening a table -/

section Open

variable {r : SSTableReader} {path : String} {data : Bytes}

/-- A range that fits and is neither refused nor too short is inside. -/
theorem RangeFits.le {limit offset size least : ℕ} (h : RangeFits limit offset size least)
    (hle : (offset + size) % 2 ^ 64 ≤ limit) (hleast : least ≤ size) : offset + size ≤ limit := by
  have hlt := (h hle).resolve_left (by omega)
  rwa [Nat.mod_eq_of_lt hlt] at hle

/-- One that does not fit is far behind any file. -/
theorem far_of_not_rangeFits {limit offset size least : ℕ} (h : ¬ RangeFits limit offset size least)
    (hsize : size < 2 ^ 32) : (offset + size) % 2 ^ 64 ≤ limit ∧ least ≤ size ∧ 2 ^ 63 ≤ offset := by
  unfold RangeFits at h
  push Not at h
  obtain ⟨hle, hleast, hwrap⟩ := h
  exact ⟨hle, hleast, by omega⟩

theorem field_lt (d : Bytes) (off w : ℕ) : field d off w < 256 ^ w := by
  refine lt_of_lt_of_le (ofLE_lt _) (Nat.pow_le_pow_right (by decide) ?_)
  exact List.length_take_le _ _

theorem deserialize_eq {offset size : ℕ} (h : size < 4 ∨ offset + size ≤ data.length) :
    deserialize data offset size = ofExcept (BloomFilter.deserialize (slice data offset size)) := by
  have hlen := length_slice_le data offset size
  unfold deserialize BloomFilter.deserialize
  by_cases hsmall : size < 4
  · have hshort : (slice data offset size).length < 4 := by omega
    rw [if_pos hsmall, if_pos hshort]
    rfl
  · obtain ⟨hfull, hfield, hrest⟩ := slice_inside hsmall (h.resolve_left hsmall)
    have hbig : ¬(slice data offset size).length < 4 := by omega
    have hbits : (slice data (offset + 4) (size - 4)).length = size - 4 := by
      rw [← hrest, List.length_drop, hfull]
    rw [if_neg hsmall, if_neg hbig, Checked.within_of_le (by omega), Checked.ok_bind, Checked.within_of_le (by omega),
      Checked.ok_bind, hfield, hrest, hbits]
    rfl

/-- What opening leaves. -/
structure Opened (r : SSTableReader) : Prop where
  size : r.data.length < 2 ^ 63
  entries : ∀ e ∈ r.indexEntries, e.compressedSize < 2 ^ 32
  filter : Sized r.bloomFilter

theorem opened_load (hsize : data.length < 2 ^ 63) (h : SSTableReader.load path data = .ok r) : Opened r := by
  unfold SSTableReader.load at h
  split at h
  · cases h
  · dsimp only at h
    split at h
    · cases h
    · split at h
      · cases h
      · split at h
        · cases h
        · split at h
          · cases h
          · rename_i bloomFilter hbloom
            obtain rfl := Except.ok.inj h
            refine ⟨hsize, fun e he => ?_, ?_⟩
            · obtain ⟨i, -, rfl⟩ := List.mem_map.mp he
              exact field_lt _ 16 4
            · unfold BloomFilter.deserialize at hbloom
              split at hbloom
              · cases hbloom
              · obtain rfl := Except.ok.inj hbloom
                rfl

/-- The entries of an index that is inside. -/
theorem mapM_indexEntryAt {offset n : ℕ} (h : n = 0 ∨ offset + n * IndexEntry.SERIALIZED_SIZE ≤ data.length) :
    (List.range n).mapM (fun i => indexEntryAt data (offset + i * IndexEntry.SERIALIZED_SIZE)) =
      .ok ((List.range n).map fun i => IndexEntry.readFrom (data.drop (offset + i * IndexEntry.SERIALIZED_SIZE))) := by
  refine Checked.mapM_ok _ fun i hi => ?_
  have hi := List.mem_range.mp hi
  unfold indexEntryAt
  unfold IndexEntry.SERIALIZED_SIZE at *
  rw [Checked.within_of_le (by omega), Checked.ok_bind]

/-- An index that has no entries, or whose end does not wrap around. -/
theorem index_inside {offset size : ℕ} (h : size < IndexEntry.SERIALIZED_SIZE ∨ offset + size < 2 ^ 64)
    (hle : (offset + size) % 2 ^ 64 ≤ data.length - SSTableFooter.SIZE) :
    size / IndexEntry.SERIALIZED_SIZE = 0 ∨
      offset + size / IndexEntry.SERIALIZED_SIZE * IndexEntry.SERIALIZED_SIZE ≤ data.length := by
  rcases h with h | h
  · exact .inl (Nat.div_eq_of_lt h)
  · rw [Nat.mod_eq_of_lt h] at hle
    have := Nat.div_mul_le_self size IndexEntry.SERIALIZED_SIZE
    exact .inr (by omega)

theorem load_eq (h : OpenFits data) : load path data = ofExcept (SSTableReader.load path data) := by
  unfold load SSTableReader.load
  by_cases hsmall : data.length < SSTableFooter.SIZE
  · rw [if_pos hsmall, if_pos hsmall]
    rfl
  · rw [if_neg hsmall, if_neg hsmall]
    have hfits := h (Nat.not_lt.mp hsmall)
    generalize SSTableFooter.read (data.drop (data.length - SSTableFooter.SIZE)) = footer at *
    dsimp only
    cases hvalid : footer.isValid with
    | false => rfl
    | true =>
      rw [if_neg Bool.true_eq_false.mp, if_neg Bool.true_eq_false.mp]
      by_cases hindex : data.length - SSTableFooter.SIZE < (footer.indexOffset + footer.indexSize) % 2 ^ 64
      · rw [if_pos hindex, if_pos hindex]
        rfl
      · obtain ⟨hi, hb⟩ := hfits hvalid (Nat.not_lt.mp hindex)
        rw [if_neg hindex, if_neg hindex, mapM_indexEntryAt (index_inside hi (Nat.not_lt.mp hindex)), Checked.ok_bind]
        by_cases hbloom : data.length - SSTableFooter.SIZE <
            (footer.bloomFilterOffset + footer.bloomFilterSize) % 2 ^ 64
        · rw [if_pos hbloom, if_pos hbloom]
          rfl
        · have hfilter : footer.bloomFilterSize < 4 ∨
              footer.bloomFilterOffset + footer.bloomFilterSize ≤ data.length := by
            rcases Nat.lt_or_ge footer.bloomFilterSize 4 with hlt | hge
            · exact .inl hlt
            · have := hb.le (Nat.not_lt.mp hbloom) hge
              exact .inr (by omega)
          rw [if_neg hbloom, if_neg hbloom, deserialize_eq hfilter]
          cases BloomFilter.deserialize (slice data footer.bloomFilterOffset footer.bloomFilterSize) <;> rfl

/-- A file whose index or filter does not fit is read outside. -/
theorem load_outside (hsize : data.length < 2 ^ 63) (h : ¬ OpenFits data) : load path data = .error .outside := by
  unfold OpenFits at h
  dsimp only at h
  push Not at h
  obtain ⟨hbig, hvalid, hindex, hnot⟩ := h
  have his : (SSTableFooter.read (data.drop (data.length - SSTableFooter.SIZE))).indexSize < 2 ^ 32 := field_lt _ 8 4
  have hbs : (SSTableFooter.read (data.drop (data.length - SSTableFooter.SIZE))).bloomFilterSize < 2 ^ 32 :=
    field_lt _ 20 4
  unfold load
  rw [if_neg (Nat.not_lt.mpr hbig)]
  generalize SSTableFooter.read (data.drop (data.length - SSTableFooter.SIZE)) = footer at *
  dsimp only
  rw [if_neg (by rw [hvalid]; decide), if_neg (Nat.not_lt.mpr hindex)]
  by_cases hi : footer.indexSize < IndexEntry.SERIALIZED_SIZE ∨ footer.indexOffset + footer.indexSize < 2 ^ 64
  · have hb := hnot hi
    obtain ⟨hle, hleast, hfar⟩ := far_of_not_rangeFits hb hbs
    rw [mapM_indexEntryAt (index_inside hi hindex), Checked.ok_bind, if_neg (Nat.not_lt.mpr hle), deserialize,
      if_neg (by omega), Checked.within_of_lt (by omega)]
    rfl
  · push Not at hi
    obtain ⟨hentries, hwrap⟩ := hi
    have hpos : 0 < footer.indexSize / IndexEntry.SERIALIZED_SIZE := Nat.div_pos hentries (by decide)
    obtain ⟨n, hn⟩ := Nat.exists_eq_succ_of_ne_zero hpos.ne'
    rw [hn, List.range_succ_eq_map, List.mapM_cons, indexEntryAt, Checked.within_of_lt (by omega)]
    rfl

theorem safe_load_iff (hsize : data.length < 2 ^ 63) : Safe (load path data) ↔ OpenFits data := by
  by_cases h : OpenFits data
  · rw [load_eq h]
    exact iff_of_true (Checked.safe_ofExcept _) h
  · rw [load_outside hsize h]
    exact iff_of_false id h

end Open

/-! ### Reading a block of a table -/

section Read

variable {lz : Lz4} {hash : Key → UInt64 → UInt64} {r : SSTableReader} {e : IndexEntry}

theorem readBlock_eq (h : BlockFits r e) : readBlock lz r e = ofExcept (r.readBlock lz e) := by
  unfold readBlock SSTableReader.readBlock
  by_cases hrefused : r.data.length < (e.offset + e.compressedSize) % 2 ^ 64
  · rw [if_pos hrefused, if_pos hrefused]
    rfl
  · rw [if_neg hrefused, if_neg hrefused]
    refine newBlock_eq lz ?_
    rcases Nat.lt_or_ge e.compressedSize 4 with hlt | hge
    · exact .inl hlt
    · exact .inr (h.le (Nat.not_lt.mp hrefused) hge)

theorem Opened.readBlock_outside (hr : Opened r) (he : e ∈ r.indexEntries) (h : ¬ BlockFits r e) :
    readBlock lz r e = .error .outside := by
  obtain ⟨hle, hleast, hfar⟩ := far_of_not_rangeFits h (hr.entries e he)
  have hsize := hr.size
  unfold readBlock
  rw [if_neg (Nat.not_lt.mpr hle)]
  exact newBlock_outside lz hleast (by omega)

theorem parsed_readBlock {b : BlockReader} (h : r.readBlock lz e = .ok b) : Parsed b := by
  unfold SSTableReader.readBlock at h
  split at h
  · cases h
  · exact parsed_new h

/-- What follows on a block is safe if the block fits and what follows is. -/
theorem Opened.safe_readBlock_bind {α : Type} (hr : Opened r) (he : e ∈ r.indexEntries)
    {f : BlockReader → Checked Exn α} :
    Safe (readBlock lz r e >>= f) ↔ BlockFits r e ∧ ∀ b, r.readBlock lz e = .ok b → Safe (f b) := by
  by_cases h : BlockFits r e
  · rw [readBlock_eq h, Checked.safe_bind]
    constructor
    · rintro ⟨-, hf⟩
      exact ⟨h, fun b hb => hf b (by rw [hb]; rfl)⟩
    · rintro ⟨-, hf⟩
      refine ⟨Checked.safe_ofExcept _, fun b hb => hf b ?_⟩
      cases hread : r.readBlock lz e with
      | ok b' =>
        rw [hread] at hb
        rw [Except.ok.inj hb]
      | error x =>
        rw [hread] at hb
        cases hb
  · rw [hr.readBlock_outside he h, Checked.error_bind]
    exact iff_of_false id fun hfits => h hfits.1

/-- What follows on a block goes on if the block is read and what follows goes on. -/
theorem goesOn_readBlock_bind {out : Type} (h : BlockFits r e) {f : BlockReader → Checked Exn (List out × Bool)} :
    (∃ l, (readBlock lz r e >>= f) = .ok (l, true)) ↔ ∃ b, r.readBlock lz e = .ok b ∧ ∃ l, f b = .ok (l, true) := by
  rw [readBlock_eq h]
  cases r.readBlock lz e with
  | ok b =>
    constructor
    · exact fun hl => ⟨b, rfl, hl⟩
    · rintro ⟨b', hb, hl⟩
      rw [Except.ok.inj hb]
      exact hl
  | error x =>
    constructor
    · rintro ⟨l, hl⟩
      cases hl
    · rintro ⟨b, hb, -⟩
      cases hb

theorem findBlockIndex_eq (key : Key) : findBlockIndex r key = .ok (r.findBlockIndex key) ∧
    r.findBlockIndex key < r.indexEntries.length := by
  unfold findBlockIndex SSTableReader.findBlockIndex
  by_cases h : r.indexEntries = []
  · rw [if_pos h, if_pos h]
    exact ⟨rfl, by omega⟩
  · rw [if_neg h, if_neg h]
    have hpos := List.length_pos_of_ne_nil h
    refine Bisect.lastLeM_eq (fun i hi => ?_) _ _ _ _ le_rfl (by omega) (by omega)
    unfold firstKeyOf
    rw [Checked.within_of_le (by omega), Checked.ok_bind]

/-! ### Getting a value -/

variable (lz hash r)

/-- What a `get` reads: the bits of the filter, then one block, then one value. -/
def GetFits (key : Key) : Prop :=
  (r.bloomFilter.numBits ≠ 0 ∨ r.bloomFilter.numHashFuncs = 0) ∧
  (r.bloomFilter.mayContain hash key = .ok true → 0 ≤ r.findBlockIndex key →
    BlockFits r (r.indexEntries.getD (r.findBlockIndex key).toNat default) ∧
    ∀ b, r.readBlock lz (r.indexEntries.getD (r.findBlockIndex key).toNat default) = .ok b →
      0 ≤ b.findKey key → b.findKey key + 1 = b.entryCount → LastFits b)

variable {lz hash r}

theorem safe_getEntry_iff {b : BlockReader} (hb : Parsed b) (key : Key) :
    Safe (do
      let entryIdx ← findKey b key
      if entryIdx < 0 then .ok none
      else do
        let entry ← entryAt b entryIdx.toNat
        let value ← valueOf b entry.2
        .ok (some value) : Checked Exn (Option Bytes)) ↔
      (0 ≤ b.findKey key → b.findKey key + 1 = b.entryCount → LastFits b) := by
  obtain ⟨hfind, hlt⟩ := hb.findKey key
  rw [hfind, Checked.ok_bind]
  by_cases hneg : b.findKey key < 0
  · rw [if_pos hneg]
    exact iff_of_true trivial fun h => absurd hneg (not_lt.mpr h)
  · have hi : (b.findKey key).toNat < b.entryCount := by omega
    rw [if_neg hneg, hb.entryAt hi, Checked.ok_bind, Checked.safe_bind]
    dsimp only
    rw [safe_valueOf_iff, hb.valueFits_iff hi]
    constructor
    · rintro ⟨h, -⟩ _ hlast
      exact h (by omega)
    · intro h
      exact ⟨fun hlast => h (by omega) (by omega), fun _ _ => trivial⟩

theorem Opened.safe_get_iff (hr : Opened r) (key : Key) : Safe (get lz hash r key) ↔ GetFits lz hash r key := by
  unfold get GetFits
  by_cases hbloom : r.bloomFilter.numBits ≠ 0 ∨ r.bloomFilter.numHashFuncs = 0
  · rw [mayContain_eq hr.filter hbloom]
    cases hmay : r.bloomFilter.mayContain hash key with
    | error x =>
      refine iff_of_true trivial ⟨hbloom, fun h => ?_⟩
      cases h
    | ok may =>
      show Safe (if may = false then _ else _) ↔ _
      cases may with
      | false =>
        refine iff_of_true trivial ⟨hbloom, fun h => ?_⟩
        cases h
      | true =>
        obtain ⟨hfind, hlt⟩ := findBlockIndex_eq (r := r) key
        rw [if_neg Bool.true_eq_false.mp, hfind, Checked.ok_bind]
        by_cases hneg : r.findBlockIndex key < 0
        · rw [if_pos hneg]
          exact iff_of_true trivial ⟨hbloom, fun _ h => absurd hneg (not_lt.mpr h)⟩
        · have hi : (r.findBlockIndex key).toNat < r.indexEntries.length := by omega
          have hmem : r.indexEntries.getD (r.findBlockIndex key).toNat default ∈ r.indexEntries := by
            rw [List.getD_eq_getElem?_getD, List.getElem?_eq_getElem hi]
            exact List.getElem_mem hi
          rw [if_neg hneg, Checked.within_of_le (by omega), Checked.ok_bind, hr.safe_readBlock_bind hmem]
          constructor
          · rintro ⟨hfits, hentry⟩
            exact ⟨hbloom, fun _ _ => ⟨hfits, fun b hb =>
              (safe_getEntry_iff (parsed_readBlock hb) key).mp (hentry b hb)⟩⟩
          · rintro ⟨-, h⟩
            obtain ⟨hfits, hentry⟩ := h rfl (not_lt.mp hneg)
            exact ⟨hfits, fun b hb => (safe_getEntry_iff (parsed_readBlock hb) key).mpr (hentry b hb)⟩
  · push Not at hbloom
    rw [mayContain_divides hbloom.1 hbloom.2]
    refine iff_of_false id fun h => ?_
    rcases h.1 with h | h
    · exact h hbloom.1
    · exact hbloom.2 h

end Read

end Bounded
end Lsm
end Amind
