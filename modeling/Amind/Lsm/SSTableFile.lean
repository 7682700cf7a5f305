/-
# Table files

A table is written as its data blocks, the index (where each block is and its
first key), the Bloom filter and a footer that says where these two are. A
reader finds the block of a key through the index.

The sizes of the index and of the filter are kept in four bytes, whatever they
are. A file is what a vector of bytes can hold.
-/
import Amind.Lsm.Bloom

namespace Amind
namespace Lsm

open LittleEndian

/-! ### Format -/

structure IndexEntry where
  firstKey : Key
  offset : ℕ
  compressedSize : ℕ
  deriving Inhabited

namespace IndexEntry

def SERIALIZED_SIZE : ℕ := 20

def writeTo (e : IndexEntry) : Bytes := pack [(8, e.firstKey.toNat), (8, e.offset), (4, e.compressedSize)]

def readFrom (data : Bytes) : IndexEntry := ⟨UInt64.ofNat (field data 0 8), field data 8 8, field data 16 4⟩

end IndexEntry

structure SSTableFooter where
  indexOffset : ℕ
  indexSize : ℕ
  bloomFilterOffset : ℕ
  bloomFilterSize : ℕ
  entryCount : ℕ
  version : ℕ
  magic : ℕ

namespace SSTableFooter

def MAGIC : ℕ := 0x436C61774D696E64

def VERSION : ℕ := 1

def SIZE : ℕ := 40

def write (f : SSTableFooter) : Bytes :=
  pack [(8, f.indexOffset), (4, f.indexSize), (8, f.bloomFilterOffset), (4, f.bloomFilterSize), (4, f.entryCount),
    (2, f.version), (2, 0), (8, f.magic)]

def read (data : Bytes) : SSTableFooter where
  indexOffset := field data 0 8
  indexSize := field data 8 4
  bloomFilterOffset := field data 12 8
  bloomFilterSize := field data 20 4
  entryCount := field data 24 4
  version := field data 28 2
  magic := field data 32 8

def isValid (f : SSTableFooter) : Bool := f.magic = MAGIC ∧ f.version = VERSION

end SSTableFooter

/-! ### Writing -/

/-- What a vector of bytes can hold. -/
def VECTOR_MAX_SIZE : ℕ := 2 ^ 63 - 1

def insertEnd (buffer bytes : Bytes) : Except Exn Bytes :=
  if VECTOR_MAX_SIZE < buffer.length + bytes.length then .error ⟨.lengthError, "vector::_M_range_insert"⟩
  else .ok (buffer ++ bytes)

structure SSTableWriter where
  fileBuffer : Bytes
  blockBuilder : BlockBuilder
  bloomFilter : BloomFilter
  indexEntries : List IndexEntry
  entryCount : ℕ
  lastKey : Key
  finished : Bool

namespace SSTableWriter

variable (lz : Lz4) (hash : Key → UInt64 → UInt64)

def new (expected : UInt64) : SSTableWriter := ⟨[], .new, .new expected, [], 0, 0, false⟩

def flushDataBlock (w : SSTableWriter) : Except Exn SSTableWriter :=
  if w.blockBuilder.entries = [] then .ok w
  else do
    let compressed ← w.blockBuilder.finish lz
    let fileBuffer ← insertEnd w.fileBuffer compressed
    .ok
      { w with
        fileBuffer := fileBuffer
        blockBuilder := .new
        indexEntries :=
          w.indexEntries ++ [⟨w.blockBuilder.firstKey, w.fileBuffer.length, compressed.length % 2 ^ 32⟩] }

/-- The writer with the entry in its current block. -/
def put (w : SSTableWriter) (bloomFilter : BloomFilter) (key : Key) (value : Bytes) : SSTableWriter :=
  { w with
    bloomFilter := bloomFilter
    blockBuilder := w.blockBuilder.add key value
    entryCount := w.entryCount + 1
    lastKey := key }

def add (w : SSTableWriter) (key : Key) (value : Bytes) : Except Exn SSTableWriter :=
  if w.finished then .error ⟨.logicError, "Cannot add entries after finish()"⟩
  else if 0 < w.entryCount ∧ key ≤ w.lastKey then
    .error ⟨.invalidArgument, "Keys must be added in strictly ascending order"⟩
  else do
    let bloomFilter ← w.bloomFilter.add hash key
    let w := w.put bloomFilter key value
    if w.blockBuilder.isFull then w.flushDataBlock lz else .ok w

def addAll (w : SSTableWriter) : List (Key × Bytes) → Except Exn SSTableWriter
  | [] => .ok w
  | e :: entries => do
    let w ← w.add lz hash e.1 e.2
    addAll w entries

/-- The footer of a file with an index of `n` entries from `indexOffset` on and
a filter behind it. -/
def footer (indexOffset indexSize bloomSize entryCount : ℕ) : SSTableFooter where
  indexOffset := indexOffset
  indexSize := indexSize % 2 ^ 32
  bloomFilterOffset := indexOffset + indexSize
  bloomFilterSize := bloomSize % 2 ^ 32
  entryCount := entryCount % 2 ^ 32
  version := SSTableFooter.VERSION
  magic := SSTableFooter.MAGIC

/-- The file. -/
def finish (w : SSTableWriter) : Except Exn Bytes :=
  if w.finished then .error ⟨.logicError, "finish() already called"⟩
  else do
    let w ← flushDataBlock lz { w with finished := true }
    let indexData := w.indexEntries.flatMap IndexEntry.writeTo
    let buffer ← insertEnd w.fileBuffer indexData
    let bloomData := w.bloomFilter.serialize
    let buffer ← insertEnd buffer bloomData
    insertEnd buffer (footer w.fileBuffer.length indexData.length bloomData.length w.entryCount).write

/-- The file of the entries. -/
def write (expected : UInt64) (entries : List (Key × Bytes)) : Except Exn Bytes := do
  let w ← addAll lz hash (new expected) entries
  w.finish lz

end SSTableWriter

/-! ### Reading -/

structure SSTableReader where
  data : Bytes
  footer : SSTableFooter
  indexEntries : List IndexEntry
  bloomFilter : BloomFilter

/-- How a walk over the entries goes on. -/
inductive Flow
  | next
  | done
  | thrown (e : Exn)
  deriving DecidableEq, Repr

namespace SSTableReader

/-- Sums of offsets and sizes are of 64 bits. -/
def load (path : String) (data : Bytes) : Except Exn SSTableReader :=
  if data.length < SSTableFooter.SIZE then .error ⟨.invalidArgument, "SSTable file too small: " ++ path⟩
  else
    let footer := SSTableFooter.read (data.drop (data.length - SSTableFooter.SIZE))
    if footer.isValid = false then .error ⟨.invalidArgument, "Invalid SSTable footer (bad magic or version)"⟩
    else if data.length - SSTableFooter.SIZE < (footer.indexOffset + footer.indexSize) % 2 ^ 64 then
      .error ⟨.invalidArgument, "Index block extends beyond file bounds"⟩
    else if data.length - SSTableFooter.SIZE < (footer.bloomFilterOffset + footer.bloomFilterSize) % 2 ^ 64 then
      .error ⟨.invalidArgument, "Bloom filter block extends beyond file bounds"⟩
    else
      match BloomFilter.deserialize (slice data footer.bloomFilterOffset footer.bloomFilterSize) with
      | .error e => .error e
      | .ok bloomFilter =>
        .ok
          { data := data
            footer := footer
            indexEntries := (List.range (footer.indexSize / IndexEntry.SERIALIZED_SIZE)).map fun i =>
              IndexEntry.readFrom (data.drop (footer.indexOffset + i * IndexEntry.SERIALIZED_SIZE))
            bloomFilter := bloomFilter }

variable (lz : Lz4) (hash : Key → UInt64 → UInt64) (r : SSTableReader)

def firstKeyAt (i : ℕ) : Key := (r.indexEntries.getD i default).firstKey

/-- The last block whose first key is not above the key. -/
def findBlockIndex (key : Key) : ℤ :=
  if r.indexEntries = [] then -1
  else Bisect.lastLe r.firstKeyAt key r.indexEntries.length 0 ((r.indexEntries.length : ℤ) - 1) (-1)

def readBlock (e : IndexEntry) : Except Exn BlockReader :=
  if r.data.length < (e.offset + e.compressedSize) % 2 ^ 64 then
    .error ⟨.runtimeError, "Data block extends beyond file bounds"⟩
  else BlockReader.new lz (slice r.data e.offset e.compressedSize)

def get (key : Key) : Except Exn (Option Bytes) := do
  let may ← r.bloomFilter.mayContain hash key
  if may = false then .ok none
  else
    let blockIdx := r.findBlockIndex key
    if blockIdx < 0 then .ok none
    else
      let block ← r.readBlock lz (r.indexEntries.getD blockIdx.toNat default)
      let entryIdx := block.findKey key
      if entryIdx < 0 then .ok none
      else
        let entry ← block.entryAt entryIdx.toNat
        .ok (some entry.2)

/-- The entries of a block with keys in the range, as the callback gets them. -/
def scanEntries (block : BlockReader) (minKey maxKey : Key) : List ℕ → List (Key × Bytes) × Flow
  | [] => ([], .next)
  | i :: is =>
    match block.entryAt i with
    | .error e => ([], .thrown e)
    | .ok e =>
      if maxKey < e.1 then ([], .done)
      else
        let (seen, flow) := scanEntries block minKey maxKey is
        (if minKey ≤ e.1 then e :: seen else seen, flow)

def scanBlocks (minKey maxKey : Key) : List IndexEntry → List (Key × Bytes) × Flow
  | [] => ([], .done)
  | e :: es =>
    if maxKey < e.firstKey then ([], .done)
    else
      match r.readBlock lz e with
      | .error x => ([], .thrown x)
      | .ok block =>
        match scanEntries block minKey maxKey (List.range block.entryCount) with
        | (seen, .next) =>
          let (more, flow) := scanBlocks minKey maxKey es
          (seen ++ more, flow)
        | stopped => stopped

def scan (minKey maxKey : Key) : List (Key × Bytes) × Flow :=
  if r.indexEntries = [] ∨ maxKey < minKey then ([], .done)
  else r.scanBlocks lz minKey maxKey (r.indexEntries.drop (r.findBlockIndex minKey).toNat)

/-- The entries of a block. -/
def eachEntry (block : BlockReader) : List ℕ → List (Key × Bytes) × Flow
  | [] => ([], .next)
  | i :: is =>
    match block.entryAt i with
    | .error e => ([], .thrown e)
    | .ok e =>
      let (seen, flow) := eachEntry block is
      (e :: seen, flow)

def eachBlock : List IndexEntry → List (Key × Bytes) × Flow
  | [] => ([], .done)
  | e :: es =>
    match r.readBlock lz e with
    | .error x => ([], .thrown x)
    | .ok block =>
      match eachEntry block (List.range block.entryCount) with
      | (seen, .next) =>
        let (more, flow) := eachBlock es
        (seen ++ more, flow)
      | stopped => stopped

def forEach : List (Key × Bytes) × Flow := r.eachBlock lz r.indexEntries

end SSTableReader

/-! ### Cursors -/

/-- A cursor has one block at a time. -/
structure SSTableCursor where
  reader : Option SSTableReader
  blockIdx : ℕ
  entryIdx : ℕ
  valid : Bool
  current : Key × Bytes
  currentBlock : Option BlockReader

namespace SSTableCursor

variable (lz : Lz4)

def none : SSTableCursor := ⟨Option.none, 0, 0, false, (0, []), Option.none⟩

def loadCurrentEntry (c : SSTableCursor) : Except Exn SSTableCursor :=
  match c.reader with
  | .none => .ok { c with valid := false }
  | some r =>
    match r.indexEntries[c.blockIdx]? with
    | .none => .ok { c with valid := false }
    | some e => do
      let block ← r.readBlock lz e
      if block.entryCount ≤ c.entryIdx then .ok { c with currentBlock := some block, valid := false }
      else
        let entry ← block.entryAt c.entryIdx
        .ok { c with currentBlock := some block, current := entry, valid := true }

/-- On to the next block. -/
def nextBlock (c : SSTableCursor) : Except Exn SSTableCursor :=
  let c := { c with blockIdx := c.blockIdx + 1, entryIdx := 0, currentBlock := Option.none }
  match c.reader with
  | .none => .ok { c with valid := false }
  | some r => if r.indexEntries.length ≤ c.blockIdx then .ok { c with valid := false } else c.loadCurrentEntry lz

def next (c : SSTableCursor) : Except Exn SSTableCursor :=
  if c.valid = false then .ok c
  else
    let c := { c with entryIdx := c.entryIdx + 1 }
    match c.currentBlock with
    | some block =>
      if c.entryIdx < block.entryCount then do
        let entry ← block.entryAt c.entryIdx
        .ok { c with current := entry }
      else c.nextBlock lz
    | .none => c.nextBlock lz

end SSTableCursor

namespace SSTableReader

variable (lz : Lz4) (r : SSTableReader)

def cursor : Except Exn SSTableCursor :=
  if r.indexEntries = [] then .ok SSTableCursor.none
  else SSTableCursor.loadCurrentEntry lz ⟨some r, 0, 0, false, (0, []), Option.none⟩

/-- The cursor after so many steps. -/
def cursorAt : ℕ → Except Exn SSTableCursor
  | 0 => r.cursor lz
  | n + 1 => do
    let c ← cursorAt n
    c.next lz

end SSTableReader

end Lsm
end Amind
