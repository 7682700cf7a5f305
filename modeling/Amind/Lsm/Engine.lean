/-
# The storage engine and its directory

`Engine` is the state a running engine keeps in memory: the memtable, the
tables of the three levels in the order lookups probe them, the manifest and
the two counters. `Disk` is its directory: the saved manifest, the table files
and the log. An operation of the engine returns the engine after it and the
persisted effects it had, in order; the directory after a crash is the one
before with some first effects applied (`Disk.applyAll`).

The manifest lists the tables of a level newest first: a new table goes to the
front. The engine's own list of a level gets a flushed table at the front, but
a compacted one at the back.

`Process` is the engine's life: it runs, is closed, crashes anywhere in an
operation or in its recovery, and is opened again.
-/
import Amind.Lsm.SSTable
import Amind.Lsm.Wal

namespace Amind
namespace Lsm

open Wal (Env WalDir Clock WalRecord)

/-! ### Files -/

/-- The name of a table file. -/
inductive FileName
  | sst (id : ℕ)
  | l1 (id : ℕ)
  | l2 (id : ℕ)
  deriving DecidableEq, Repr

/-- The name as the directory has it. -/
def FileName.render : FileName → String
  | .sst id =>
    let digits := toString id
    "sst_" ++ String.ofList (List.replicate (6 - digits.length) '0') ++ digits ++ ".sst"
  | .l1 id => "L1_" ++ toString id ++ ".sst"
  | .l2 id => "L2_" ++ toString id ++ ".sst"

/-- The tables of each level, newest first, the highest sequence number that is in
tables, and the number of the next table. Each table takes one number: the source
counts them in 64 bits, which no directory uses up. -/
structure Manifest where
  checkpointSeq : UInt64
  nextSstId : ℕ
  l0Files : List FileName
  l1Files : List FileName
  l2Files : List FileName
  deriving DecidableEq, Repr

namespace Manifest

/-- A manifest that lists nothing. -/
def empty : Manifest := ⟨0, 0, [], [], []⟩

def addL0File (m : Manifest) (f : FileName) : Manifest := { m with l0Files := f :: m.l0Files }

def compactL0ToL1 (m : Manifest) (old : List FileName) (new : FileName) : Manifest :=
  { m with l0Files := old.foldl List.erase m.l0Files, l1Files := new :: m.l1Files }

def compactL1ToL2 (m : Manifest) (old : List FileName) (new : FileName) : Manifest :=
  { m with l1Files := old.foldl List.erase m.l1Files, l2Files := new :: m.l2Files }

end Manifest

/-- The engine's directory. -/
structure Disk where
  manifest : Option Manifest
  files : List (FileName × SSTable)
  wal : WalDir

namespace Disk

/-- A new directory. -/
def empty : Disk := ⟨none, [], WalDir.empty⟩

/-- The table of a file. -/
def read (d : Disk) (f : FileName) : Option SSTable := d.files.lookup f

end Disk

/-- What an operation does to the directory, one file at a time. -/
inductive Effect
  | tableWritten (f : FileName) (t : SSTable)
  | manifestSaved (m : Manifest)
  | walAppended (r : WalRecord) (clk : Clock)
  | walTruncated
  | fileRemoved (f : FileName)

/-- The directory after the effect. -/
def Disk.apply (E : Env) (d : Disk) : Effect → Disk
  | .tableWritten f t => { d with files := (f, t) :: d.files.filter fun x => x.1 ≠ f }
  | .manifestSaved m => { d with manifest := some m }
  | .walAppended r clk => { d with wal := Wal.writeRecord E d.wal r clk }
  | .walTruncated => { d with wal := Wal.truncate d.wal }
  | .fileRemoved f => { d with files := d.files.filter fun x => x.1 ≠ f }

/-- The directory after the effects, in order. -/
def Disk.applyAll (E : Env) (d : Disk) (w : List Effect) : Disk := w.foldl (Disk.apply E) d

/-! ### The running engine -/

/-- An open table. -/
structure Table where
  name : FileName
  table : SSTable

/-- The first of the tables that has the key answers. -/
def probe (ts : List Table) (k : Key) : Option Bytes := ts.findSome? fun t => t.table.get k

/-- The engine in memory. Its `nextSstId` is the counter of compacted tables, beside that
of the manifest; both count without a bound here. -/
structure Engine where
  activeMemtable : MemTable
  immutableMemtable : Option MemTable
  l0Tables : List Table
  l1Tables : List Table
  l2Tables : List Table
  nextSstId : ℕ
  manifest : Manifest
  sequenceNumber : UInt64

def L0_COMPACTION_THRESHOLD : ℕ := 4
def L1_COMPACTION_THRESHOLD : ℕ := 4

/-- The level a compaction takes its tables from. -/
inductive Level
  | l0
  | l1
  deriving DecidableEq, Repr

/-- The name of a compaction's output. -/
def Level.outputName : Level → ℕ → FileName
  | .l0, id => .l1 id
  | .l1, id => .l2 id

namespace Engine

/-- What the memtables have for the key. -/
def memHit (e : Engine) (k : Key) : Option Bytes :=
  (e.activeMemtable.getRaw k).or (e.immutableMemtable.bind fun m => m.getRaw k)

/-- What the tables have for the key: the first table that has it, level
after level. -/
def tableHit (e : Engine) (k : Key) : Option Bytes :=
  (probe e.l0Tables k).or ((probe e.l1Tables k).or (probe e.l2Tables k))

/-- An empty value is a deletion. -/
def live (v : Option Bytes) : Option Bytes := v.filter fun bs => !bs.isEmpty

@[simp] theorem live_none : live none = none := rfl

@[simp] theorem live_nil : live (some []) = none := rfl

@[simp] theorem live_cons (b : UInt8) (bs : Bytes) : live (some (b :: bs)) = some (b :: bs) := rfl

theorem live_some {v : Bytes} (h : v ≠ []) : live (some v) = some v := by
  cases v with
  | nil => exact absurd rfl h
  | cons b bs => rfl

theorem live_eq {v : Option Bytes} (h : v ≠ some []) : live v = v := by
  cases v with
  | none => rfl
  | some bs => exact live_some fun hb => h (by rw [hb])

/-- Look up a record. -/
def get (e : Engine) (k : Key) : Option Bytes := live ((e.memHit k).or (e.tableHit k))

/-- Write the memtable to a new L0 table. -/
def flushMemTable (e : Engine) (m : MemTable) : Engine × List Effect :=
  let f := FileName.sst e.manifest.nextSstId
  let t := SSTable.ofMemTable m
  let manifest := { e.manifest with nextSstId := e.manifest.nextSstId + 1 }
  ({ e with l0Tables := ⟨f, t⟩ :: e.l0Tables, manifest := manifest.addL0File f }, [.tableWritten f t])

/-- Everything up to the current sequence number is in tables. -/
def saveCheckpoint (e : Engine) : Engine × List Effect :=
  let manifest := { e.manifest with checkpointSeq := e.sequenceNumber }
  ({ e with manifest := manifest }, [.manifestSaved manifest])

def flushLocked (e : Engine) : Engine × List Effect :=
  if e.activeMemtable.isEmpty then (e, [])
  else
    let (e₁, w₁) := flushMemTable e e.activeMemtable
    let (e₂, w₂) := saveCheckpoint { e₁ with activeMemtable := SkipList.empty }
    (e₂, w₁ ++ [.walTruncated] ++ w₂)

/-- The tables a compaction of the level merges. -/
def sourceTables (e : Engine) : Level → List Table
  | .l0 => e.l0Tables
  | .l1 => e.l1Tables

/-- The engine with the level's tables replaced by `out` in the next one. -/
def install (e : Engine) (level : Level) (out : Table) (manifest : Manifest) : Engine :=
  match level with
  | .l0 => { e with l0Tables := [], l1Tables := e.l1Tables ++ [out], nextSstId := e.nextSstId + 1, manifest }
  | .l1 => { e with l1Tables := [], l2Tables := e.l2Tables ++ [out], nextSstId := e.nextSstId + 1, manifest }

/-- Merge all tables of the level into one of the next level. -/
def mergeLevel (e : Engine) (level : Level) : Engine × List Effect :=
  let source := e.sourceTables level
  let out : Table := ⟨level.outputName e.nextSstId, SSTable.mergeTables (source.map (·.table))⟩
  let oldNames := source.map (·.name)
  let advanced := { e.manifest with nextSstId := e.nextSstId + 1 }
  let manifest :=
    match level with
    | .l0 => advanced.compactL0ToL1 oldNames out.name
    | .l1 => advanced.compactL1ToL2 oldNames out.name
  (e.install level out manifest,
    [.tableWritten out.name out.table, .manifestSaved manifest] ++ oldNames.map .fileRemoved)

/-- Compact a level into the next, and L1 in turn when it has become full. -/
def compactLevel (e : Engine) : Level → Engine × List Effect
  | .l0 =>
    if e.l0Tables.length < 2 then (e, [])
    else
      let (e₁, w₁) := e.mergeLevel .l0
      if L1_COMPACTION_THRESHOLD ≤ e₁.l1Tables.length then
        let (e₂, w₂) := e₁.mergeLevel .l1
        (e₂, w₁ ++ w₂)
      else (e₁, w₁)
  | .l1 => if e.l1Tables.length < 2 then (e, []) else e.mergeLevel .l1

def compactL0 (e : Engine) : Engine × List Effect := e.compactLevel .l0

/-- Compact L0 if it has reached its limit. -/
def maybeCompact (e : Engine) : Engine × List Effect :=
  if L0_COMPACTION_THRESHOLD ≤ e.l0Tables.length then e.compactL0 else (e, [])

def forceCompact (e : Engine) : Engine × List Effect :=
  if 2 ≤ e.l0Tables.length then e.compactL0 else (e, [])

/-- Flush a full memtable. The manifest is saved before the log is cut. -/
def flushAndCompact (e : Engine) : Engine × List Effect :=
  let e₀ := { e with immutableMemtable := some e.activeMemtable, activeMemtable := SkipList.empty }
  let (e₁, w₁) := flushMemTable e₀ e.activeMemtable
  let (e₂, w₂) := saveCheckpoint { e₁ with immutableMemtable := none }
  let (e₃, w₃) := e₂.maybeCompact
  (e₃, w₁ ++ w₂ ++ [.walTruncated] ++ w₃)

/-- Insert a pre-serialized record. `full` is the memtable's `shouldFlush`
after it, which depends on the skip list's random levels. -/
def putRaw (e : Engine) (k : Key) (data : Bytes) (full : Bool) (clk : Clock) : Engine × List Effect :=
  let seq := e.sequenceNumber + 1
  let e₁ := { e with sequenceNumber := seq, activeMemtable := e.activeMemtable.putRaw k data }
  let w₁ := [Effect.walAppended (Wal.putRecord seq k data) clk]
  if full then
    let (e₂, w₂) := e₁.flushAndCompact
    (e₂, w₁ ++ w₂)
  else (e₁, w₁)

/-- Delete a record. -/
def remove (e : Engine) (k : Key) (clk : Clock) : Engine × List Effect :=
  let seq := e.sequenceNumber + 1
  ({ e with sequenceNumber := seq, activeMemtable := MemTable.remove e.activeMemtable k },
    [.walAppended (Wal.deleteRecord seq k) clk])

/-- One round of the flush thread. -/
def lazyFlush (e : Engine) : Engine × List Effect :=
  if e.activeMemtable.isEmpty then (e, [])
  else
    let (e₁, w₁) := e.flushLocked
    let (e₂, w₂) := e₁.maybeCompact
    (e₂, w₁ ++ w₂)

end Engine

/-! ### Opening a directory -/

/-- The tables of the files that can be read. -/
def Disk.load (d : Disk) (fs : List FileName) : List Table :=
  fs.filterMap fun f => (d.read f).map fun t => ⟨f, t⟩

/-- The table files whose name passes, names descending. -/
def Disk.scan (d : Disk) (p : FileName → Bool) : List FileName :=
  ((d.files.map (·.1)).filter p).insertionSort fun a b => b.render ≤ a.render

/-- The first id above all those of the L0 tables. -/
def nextIdAfter (ts : List Table) : ℕ :=
  ts.foldl (fun next t => match t.name with
    | .sst id => if next ≤ id then id + 1 else next
    | _ => next) 0

namespace Engine

/-- The engine with the manifest's tables, or, without a manifest, with those
of the directory and a manifest that lists them. -/
def loadTables (d : Disk) : Engine × List Effect :=
  match d.manifest with
  | some m =>
    ({ activeMemtable := SkipList.empty, immutableMemtable := none, l0Tables := d.load m.l0Files,
       l1Tables := d.load m.l1Files, l2Tables := d.load m.l2Files, nextSstId := m.nextSstId, manifest := m,
       sequenceNumber := 0 }, [])
  | none =>
    let l0 := d.load (d.scan fun f => match f with | .sst _ => true | _ => false)
    let l1 := d.load (d.scan fun f => match f with | .l1 _ => true | _ => false)
    let l2 := d.load (d.scan fun f => match f with | .l2 _ => true | _ => false)
    let m : Manifest := ⟨0, nextIdAfter l0, l0.map (·.name), l1.map (·.name), l2.map (·.name)⟩
    ({ activeMemtable := SkipList.empty, immutableMemtable := none, l0Tables := l0, l1Tables := l1,
       l2Tables := l2, nextSstId := nextIdAfter l0, manifest := m, sequenceNumber := 0 }, [.manifestSaved m])

/-- The engine with the log's records above the checkpoint in its memtable. -/
def replayWal (E : Env) (d : Disk) (e : Engine) : Engine :=
  { e with
    activeMemtable := Wal.rebuild (Wal.replay E d.wal e.manifest.checkpointSeq)
    sequenceNumber := max e.manifest.checkpointSeq (Wal.maxSeq E d.wal) }

/-- Flush what the log gave back. The log is cut before the manifest is
saved. -/
def recoverFlush (e : Engine) : Engine × List Effect :=
  if e.activeMemtable.isEmpty then (e, [])
  else
    let (e₁, w₁) := flushMemTable e e.activeMemtable
    let (e₂, w₂) := saveCheckpoint { e₁ with activeMemtable := SkipList.empty }
    let (e₃, w₃) := e₂.maybeCompact
    (e₃, w₁ ++ [.walTruncated] ++ w₂ ++ w₃)

/-- Construct an engine on the directory. -/
def construct (E : Env) (d : Disk) : Engine × List Effect :=
  let (e₀, w₀) := loadTables d
  let (e₁, w₁) := (e₀.replayWal E d).recoverFlush
  (e₁, w₀ ++ w₁)

end Engine

/-! ### The shape of a flush

Three paths flush the memtable. They come to the same engine (`flushed`) and
differ in the order of their effects. -/

namespace Engine

/-- The table a flush writes. -/
def newTable (e : Engine) : Table := ⟨.sst e.manifest.nextSstId, SSTable.ofMemTable e.activeMemtable⟩

/-- The engine with its memtable flushed. -/
def flushed (e : Engine) : Engine :=
  { e with
    activeMemtable := SkipList.empty
    immutableMemtable := none
    l0Tables := e.newTable :: e.l0Tables
    manifest := { e.manifest with
      checkpointSeq := e.sequenceNumber
      nextSstId := e.manifest.nextSstId + 1
      l0Files := e.newTable.name :: e.manifest.l0Files } }

@[simp] theorem flushed_activeMemtable (e : Engine) : e.flushed.activeMemtable = SkipList.empty := rfl

theorem flushLocked_eq {e : Engine} (hi : e.immutableMemtable = none) (hm : e.activeMemtable.isEmpty = false) :
    e.flushLocked = (e.flushed,
      [.tableWritten e.newTable.name e.newTable.table, .walTruncated, .manifestSaved e.flushed.manifest]) := by
  unfold flushLocked flushed
  rw [hm, ← hi]
  rfl

theorem flushLocked_empty {e : Engine} (hm : e.activeMemtable.isEmpty = true) : e.flushLocked = (e, []) :=
  if_pos hm

theorem flushAndCompact_eq (e : Engine) :
    e.flushAndCompact = (e.flushed.maybeCompact.1,
      [.tableWritten e.newTable.name e.newTable.table, .manifestSaved e.flushed.manifest, .walTruncated] ++
        e.flushed.maybeCompact.2) := rfl

theorem recoverFlush_eq {e : Engine} (hi : e.immutableMemtable = none) (hm : e.activeMemtable.isEmpty = false) :
    e.recoverFlush = (e.flushed.maybeCompact.1,
      [.tableWritten e.newTable.name e.newTable.table, .walTruncated, .manifestSaved e.flushed.manifest] ++
        e.flushed.maybeCompact.2) := by
  unfold recoverFlush flushed
  rw [hm, ← hi]
  rfl

theorem recoverFlush_empty {e : Engine} (hm : e.activeMemtable.isEmpty = true) : e.recoverFlush = (e, []) :=
  if_pos hm

/-- The flush thread flushes and then compacts. -/
theorem lazyFlush_eq (e : Engine) (hm : e.activeMemtable.isEmpty = false) :
    e.lazyFlush = (e.flushLocked.1.maybeCompact.1, e.flushLocked.2 ++ e.flushLocked.1.maybeCompact.2) := by
  unfold lazyFlush
  rw [hm]
  rfl

theorem lazyFlush_empty {e : Engine} (hm : e.activeMemtable.isEmpty = true) : e.lazyFlush = (e, []) :=
  if_pos hm

end Engine

/-! ### Runs -/

/-- The operations on a running engine. -/
inductive Op
  | putRaw (k : Key) (data : Bytes) (full : Bool) (clk : Clock)
  | remove (k : Key) (clk : Clock)
  | flush
  | lazyFlush
  | maybeCompact
  | forceCompact
  deriving DecidableEq, Repr

/-- One operation. -/
def Engine.exec (e : Engine) : Op → Engine × List Effect
  | .putRaw k data full clk => e.putRaw k data full clk
  | .remove k clk => e.remove k clk
  | .flush => e.flushLocked
  | .lazyFlush => e.lazyFlush
  | .maybeCompact => e.maybeCompact
  | .forceCompact => e.forceCompact

/-- The engine runs on its directory, or there is only the directory. -/
inductive Process
  | running (e : Engine) (d : Disk)
  | stopped (d : Disk)

/-- What happens to the process. A crash leaves the first `n` effects of the
operation it interrupts. The destructor flushes. -/
inductive Event
  | exec (op : Op)
  | close
  | crash (op : Op) (n : ℕ)
  | construct
  | crashConstruct (n : ℕ)
  deriving DecidableEq, Repr

/-- One event. One that cannot happen changes nothing. -/
def Process.step (E : Env) : Process → Event → Process
  | .running e d, .exec op => .running (e.exec op).1 (d.applyAll E (e.exec op).2)
  | .running e d, .close => .stopped (d.applyAll E e.flushLocked.2)
  | .running e d, .crash op n => .stopped (d.applyAll E ((e.exec op).2.take n))
  | .stopped d, .construct => .running (Engine.construct E d).1 (d.applyAll E (Engine.construct E d).2)
  | .stopped d, .crashConstruct n => .stopped (d.applyAll E ((Engine.construct E d).2.take n))
  | p, _ => p

/-- The process on a new directory. -/
def Process.fresh : Process := .stopped Disk.empty

end Lsm
end Amind
