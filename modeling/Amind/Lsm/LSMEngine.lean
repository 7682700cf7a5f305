/-
# The storage engine over table files

`Engine` takes a table for the list of its entries. Here the tables are files:
a flush and a compaction write them with `SSTableWriter`, a lookup and a merge
read them through `SSTableReader`, and what these throw goes where the engine
lets it go. A table that a merge cannot open counts as an empty one, and is
deleted with the others (`openCursor`); the flush of a full memtable puts the
memtable back; the flush thread and the destructor drop what they catch; a
table that does not load is left out when a directory is opened.

An operation ends in an `Outcome`: the engine after it, the effects on the
directory, and what was thrown.
-/
import Amind.Lsm.Engine
import Amind.Lsm.MergeLoop

namespace Amind
namespace Lsm

open Wal (Env WalDir Clock WalRecord)

/-- What table files depend on: the compression, the hash of the filters and
the engine's directory. -/
structure TableEnv where
  lz : Lz4
  hash : Key → UInt64 → UInt64
  dbDir : String

def TableEnv.path (T : TableEnv) (f : FileName) : String := T.dbDir ++ "/" ++ f.render

/-! ### The directory -/

/-- The directory, with the bytes of its table files. -/
structure Directory where
  manifest : Option Manifest
  files : List (FileName × Bytes)
  wal : WalDir

/-- A new directory. -/
def Directory.empty : Directory := ⟨none, [], WalDir.empty⟩

inductive FileEffect
  | tableWritten (f : FileName) (data : Bytes)
  | manifestSaved (m : Manifest)
  | walAppended (r : WalRecord) (clk : Clock)
  | walTruncated
  | fileRemoved (f : FileName)

/-- The directory after the effect. -/
def Directory.apply (E : Env) (d : Directory) : FileEffect → Directory
  | .tableWritten f data => { d with files := (f, data) :: d.files.filter fun x => x.1 ≠ f }
  | .manifestSaved m => { d with manifest := some m }
  | .walAppended r clk => { d with wal := Wal.writeRecord E d.wal r clk }
  | .walTruncated => { d with wal := Wal.truncate d.wal }
  | .fileRemoved f => { d with files := d.files.filter fun x => x.1 ≠ f }

/-- The directory after the effects, in order. -/
def Directory.applyAll (E : Env) (d : Directory) (w : List FileEffect) : Directory := w.foldl (Directory.apply E) d

/-! ### The engine -/

structure OpenTable where
  name : FileName
  reader : SSTableReader

structure LSMEngine where
  activeMemtable : MemTable
  immutableMemtable : Option MemTable
  l0Tables : List OpenTable
  l1Tables : List OpenTable
  l2Tables : List OpenTable
  nextSstId : ℕ
  manifest : Manifest
  sequenceNumber : UInt64

/-- How an operation ends. -/
structure Outcome where
  engine : LSMEngine
  effects : List FileEffect
  thrown : Option Exn

namespace Outcome

/-- Nothing was done. -/
def done (e : LSMEngine) : Outcome := ⟨e, [], none⟩

/-- The next part of the operation, unless this one has thrown. -/
def andThen (o : Outcome) (next : LSMEngine → Outcome) : Outcome :=
  match o.thrown with
  | some _ => o
  | none => { next o.engine with effects := o.effects ++ (next o.engine).effects }

end Outcome

/-! ### A merge of table files -/

section Merge

variable (T : TableEnv)

/-- The entries that a merge of the tables can come to. -/
def mergeTurns (readers : List SSTableReader) : ℕ := (readers.map fun r => (r.forEach T.lz).1.length).sum

/-- The entries the footers count. -/
def estimatedEntries (readers : List SSTableReader) : UInt64 :=
  UInt64.ofNat (readers.map fun r => r.footer.entryCount).sum

/-- The file that the writer's destructor leaves when a cursor throws in the
loop. Where the writer itself has thrown, its destructor comes to the same
block and throws again. -/
def partialFile : ℕ → MergeState → Option Bytes
  | 0, _ => none
  | n + 1, s =>
    match HeapEntry.popTop s.heap with
    | none => none
    | some (top, heap) =>
      match writeTop T.lz T.hash s top.key (s.cursors.getD top.tableIndex .none).current.2 with
      | .error _ => none
      | .ok writer =>
        match mergeTurn T.lz T.hash s top heap with
        | .error _ => if 0 < writer.entryCount then (writer.finish T.lz).toOption else none
        | .ok s' => partialFile n s'

end Merge

namespace LSMEngine

variable (T : TableEnv)

/-! ### Lookups -/

/-- What the memtables have for the key. -/
def memHit (e : LSMEngine) (k : Key) : Option Bytes :=
  (e.activeMemtable.getRaw k).or (e.immutableMemtable.bind fun m => m.getRaw k)

/-- The first of the tables that has the key answers. -/
def probe : List OpenTable → Key → Except Exn (Option Bytes)
  | [], _ => .ok none
  | t :: ts, k => do
    let may ← t.reader.bloomFilter.mayContain T.hash k
    if may = false then probe ts k
    else
      let hit ← t.reader.get T.lz T.hash k
      if hit.isSome then .ok hit else probe ts k

/-- The tables, level after level. -/
def tableHit (e : LSMEngine) (k : Key) : Except Exn (Option Bytes) := do
  let hit ← probe T e.l0Tables k
  if hit.isSome then .ok hit
  else
    let hit ← probe T e.l1Tables k
    if hit.isSome then .ok hit else probe T e.l2Tables k

/-- Look up a record. -/
def get (e : LSMEngine) (k : Key) : Except Exn (Option Bytes) :=
  match e.memHit k with
  | some v => .ok (Engine.live (some v))
  | none => do
    let hit ← e.tableHit T k
    .ok (Engine.live hit)

/-! ### Flushes -/

/-- Write the memtable to a new L0 table, and load it. -/
def flushMemTable (e : LSMEngine) (m : MemTable) : Outcome :=
  let f := FileName.sst e.manifest.nextSstId
  let e := { e with manifest := { e.manifest with nextSstId := e.manifest.nextSstId + 1 } }
  match SSTableWriter.write T.lz T.hash (UInt64.ofNat m.nodes.length) (m.nodes.map SSTable.entryOf) with
  | .error x => ⟨e, [], some x⟩
  | .ok data =>
    match SSTableReader.load (T.path f) data with
    | .error x => ⟨e, [.tableWritten f data], some x⟩
    | .ok r =>
      ⟨{ e with l0Tables := ⟨f, r⟩ :: e.l0Tables, manifest := e.manifest.addL0File f }, [.tableWritten f data], none⟩

/-- Everything up to the current sequence number is in tables. -/
def checkpointed (e : LSMEngine) : Manifest := { e.manifest with checkpointSeq := e.sequenceNumber }

def flushLocked (e : LSMEngine) : Outcome :=
  if e.activeMemtable.isEmpty then .done e
  else
    (e.flushMemTable T e.activeMemtable).andThen fun e =>
      ⟨{ e with activeMemtable := SkipList.empty, manifest := e.checkpointed },
        [.walTruncated, .manifestSaved e.checkpointed], none⟩

/-! ### Compactions -/

/-- The tables a compaction of the level merges. -/
def sourceTables (e : LSMEngine) : Level → List OpenTable
  | .l0 => e.l0Tables
  | .l1 => e.l1Tables

def clearSource (e : LSMEngine) : Level → LSMEngine
  | .l0 => { e with l0Tables := [] }
  | .l1 => { e with l1Tables := [] }

/-- The next level gets the table, at the back. -/
def pushTable (e : LSMEngine) (level : Level) (t : OpenTable) : LSMEngine :=
  match level with
  | .l0 => { e with l1Tables := e.l1Tables ++ [t] }
  | .l1 => { e with l2Tables := e.l2Tables ++ [t] }

/-- Merge all tables of the level into one of the next level. The old files
are gone before the new one is loaded. -/
def mergeLevel (e : LSMEngine) (level : Level) : Outcome :=
  let source := e.sourceTables level
  let readers := source.map (·.reader)
  let out := level.outputName e.nextSstId
  let e := { e with nextSstId := e.nextSstId + 1 }
  let start := mergeStart T.lz (estimatedEntries readers) readers
  match mergeLoop T.lz T.hash (mergeTurns T readers) start with
  | .error x => ⟨e, (partialFile T (mergeTurns T readers) start).toList.map (.tableWritten out), some x⟩
  | .ok merged =>
    match merged.writer.finish T.lz with
    | .error x => ⟨e, [], some x⟩
    | .ok data =>
      let oldNames := source.map (·.name)
      let advanced := { e.manifest with nextSstId := e.nextSstId }
      let manifest :=
        match level with
        | .l0 => advanced.compactL0ToL1 oldNames out
        | .l1 => advanced.compactL1ToL2 oldNames out
      let e := { e with manifest := manifest }.clearSource level
      let effects := [.tableWritten out data, .manifestSaved manifest] ++ oldNames.map .fileRemoved
      match SSTableReader.load (T.path out) data with
      | .error x => ⟨e, effects, some x⟩
      | .ok r => ⟨e.pushTable level ⟨out, r⟩, effects, none⟩

/-- Compact a level into the next, and L1 in turn when it has become full. -/
def compactLevel (e : LSMEngine) : Level → Outcome
  | .l0 =>
    if e.l0Tables.length < 2 then .done e
    else
      (e.mergeLevel T .l0).andThen fun e =>
        if L1_COMPACTION_THRESHOLD ≤ e.l1Tables.length then e.mergeLevel T .l1 else .done e
  | .l1 => if e.l1Tables.length < 2 then .done e else e.mergeLevel T .l1

def compactL0 (e : LSMEngine) : Outcome := e.compactLevel T .l0

/-- Compact L0 if it has reached its limit. -/
def maybeCompact (e : LSMEngine) : Outcome :=
  if L0_COMPACTION_THRESHOLD ≤ e.l0Tables.length then e.compactL0 T else .done e

def forceCompact (e : LSMEngine) : Outcome := if 2 ≤ e.l0Tables.length then e.compactL0 T else .done e

/-- Flush a full memtable; it is put back if that throws. The manifest is saved
before the log is cut. -/
def flushAndCompact (e : LSMEngine) : Outcome :=
  let o := flushMemTable T { e with immutableMemtable := some e.activeMemtable, activeMemtable := SkipList.empty }
    e.activeMemtable
  match o.thrown with
  | some x => ⟨{ o.engine with activeMemtable := e.activeMemtable, immutableMemtable := none }, o.effects, some x⟩
  | none =>
    o.andThen fun e =>
      (Outcome.mk { e with immutableMemtable := none, manifest := e.checkpointed }
        [.manifestSaved e.checkpointed, .walTruncated] none).andThen (maybeCompact T)

/-! ### Writes -/

/-- Insert a pre-serialized record. `full` is the memtable's `shouldFlush`
after it. -/
def putRaw (e : LSMEngine) (k : Key) (data : Bytes) (full : Bool) (clk : Clock) : Outcome :=
  let seq := e.sequenceNumber + 1
  (Outcome.mk { e with sequenceNumber := seq, activeMemtable := e.activeMemtable.putRaw k data }
    [.walAppended (Wal.putRecord seq k data) clk] none).andThen fun e =>
      if full then e.flushAndCompact T else .done e

/-- Delete a record. -/
def remove (e : LSMEngine) (k : Key) (clk : Clock) : Outcome :=
  let seq := e.sequenceNumber + 1
  ⟨{ e with sequenceNumber := seq, activeMemtable := MemTable.remove e.activeMemtable k },
    [.walAppended (Wal.deleteRecord seq k) clk], none⟩

/-- One round of the flush thread, which logs what it catches. -/
def lazyFlush (e : LSMEngine) : Outcome :=
  if e.activeMemtable.isEmpty then .done e
  else { (e.flushLocked T).andThen (maybeCompact T) with thrown := none }

/-- One operation. -/
def exec (e : LSMEngine) : Op → Outcome
  | .putRaw k data full clk => e.putRaw T k data full clk
  | .remove k clk => e.remove k clk
  | .flush => e.flushLocked T
  | .lazyFlush => e.lazyFlush T
  | .maybeCompact => e.maybeCompact T
  | .forceCompact => e.forceCompact T

end LSMEngine

/-! ### Opening a directory -/

namespace Directory

variable (T : TableEnv) (d : Directory)

/-- The table of a file, if the file is there and loads. -/
def openTable (f : FileName) : Option OpenTable :=
  (d.files.lookup f).bind fun data => (SSTableReader.load (T.path f) data).toOption.map fun r => ⟨f, r⟩

/-- The tables of the files that load. -/
def load (fs : List FileName) : List OpenTable := fs.filterMap (d.openTable T)

/-- The table files whose name passes, names descending. -/
def scan (p : FileName → Bool) : List FileName :=
  ((d.files.map (·.1)).filter p).insertionSort fun a b => b.render ≤ a.render

end Directory

namespace LSMEngine

variable (T : TableEnv)

/-- The first id above all those of the L0 tables. -/
def nextIdAfter (ts : List OpenTable) : ℕ :=
  ts.foldl (fun next t => match t.name with
    | .sst id => if next ≤ id then id + 1 else next
    | _ => next) 0

/-- The engine with the manifest's tables, or, without a manifest, with those
of the directory and a manifest that lists them. -/
def loadTables (d : Directory) : LSMEngine × List FileEffect :=
  match d.manifest with
  | some m =>
    ({ activeMemtable := SkipList.empty, immutableMemtable := none, l0Tables := d.load T m.l0Files,
       l1Tables := d.load T m.l1Files, l2Tables := d.load T m.l2Files, nextSstId := m.nextSstId, manifest := m,
       sequenceNumber := 0 }, [])
  | none =>
    let l0 := d.load T (d.scan fun f => match f with | .sst _ => true | _ => false)
    let l1 := d.load T (d.scan fun f => match f with | .l1 _ => true | _ => false)
    let l2 := d.load T (d.scan fun f => match f with | .l2 _ => true | _ => false)
    let m : Manifest := ⟨0, nextIdAfter l0, l0.map (·.name), l1.map (·.name), l2.map (·.name)⟩
    ({ activeMemtable := SkipList.empty, immutableMemtable := none, l0Tables := l0, l1Tables := l1,
       l2Tables := l2, nextSstId := nextIdAfter l0, manifest := m, sequenceNumber := 0 }, [.manifestSaved m])

/-- The engine with the log's records above the checkpoint in its memtable. -/
def replayWal (E : Env) (d : Directory) (e : LSMEngine) : LSMEngine :=
  { e with
    activeMemtable := Wal.rebuild (Wal.replay E d.wal e.manifest.checkpointSeq)
    sequenceNumber := max e.manifest.checkpointSeq (Wal.maxSeq E d.wal) }

/-- Flush what the log gave back. The log is cut before the manifest is
saved. -/
def recoverFlush (e : LSMEngine) : Outcome :=
  if e.activeMemtable.isEmpty then .done e
  else
    (e.flushMemTable T e.activeMemtable).andThen fun e =>
      (Outcome.mk { e with activeMemtable := SkipList.empty, manifest := e.checkpointed }
        [.walTruncated, .manifestSaved e.checkpointed] none).andThen (maybeCompact T)

/-- Construct an engine on the directory. What is thrown leaves no engine. -/
def construct (E : Env) (d : Directory) : Outcome :=
  (Outcome.mk ((loadTables T d).1.replayWal E d) (loadTables T d).2 none).andThen (recoverFlush T)

end LSMEngine

/-! ### Runs -/

/-- The engine runs on its directory, or there is only the directory. -/
inductive LSMProcess
  | running (e : LSMEngine) (d : Directory)
  | stopped (d : Directory)

namespace LSMProcess

/-- One event. What an operation throws goes to its caller, and what the
destructor throws is caught. -/
def step (T : TableEnv) (E : Env) : LSMProcess → Event → LSMProcess
  | .running e d, .exec op => .running (e.exec T op).engine (d.applyAll E (e.exec T op).effects)
  | .running e d, .close => .stopped (d.applyAll E (e.flushLocked T).effects)
  | .running e d, .crash op n => .stopped (d.applyAll E ((e.exec T op).effects.take n))
  | .stopped d, .construct =>
    match (LSMEngine.construct T E d).thrown with
    | some _ => .stopped (d.applyAll E (LSMEngine.construct T E d).effects)
    | none => .running (LSMEngine.construct T E d).engine (d.applyAll E (LSMEngine.construct T E d).effects)
  | .stopped d, .crashConstruct n => .stopped (d.applyAll E ((LSMEngine.construct T E d).effects.take n))
  | p, _ => p

/-- The process on a new directory. -/
def fresh : LSMProcess := .stopped Directory.empty

end LSMProcess

end Lsm
end Amind
