/-
# The files of the lineage index

Each call is an entry at the end of `lineage_wal.bin`: a header, the parents of a
record, a checksum. The number of parents has 16 bits in the header, but all
parents are written, so an entry is read back only if it has fewer than 65536. A
checkpoint writes the records and the removed nodes to `lineage_snapshot.bin` and
cuts the log.

`reading` is the directory read as patches, `view_recover` says that this is what
the constructor does, and `base_snapshotBytes` that the snapshot of an index holds
its records and its removed nodes.
-/
import Amind.Core.Crc32
import Amind.Core.RecordCodec
import Amind.Lib.ByteReader
import Amind.Lib.Journal
import Amind.Lineage.Index

namespace Amind
namespace Lineage

open Amind.Core LittleEndian ByteReader Journal

/-- The bytes of a list of ids. -/
def idBytes (ids : List UInt64) : Bytes := ids.flatMap fun id => toLE 8 id.toNat

def readIds (n : ℕ) : Reader (List UInt64) := times (UInt64.ofNat <$> number 8) n

theorem length_idBytes (ids : List UInt64) : (idBytes ids).length = 8 * ids.length := by
  induction ids with
  | nil => rfl
  | cons id ids ih =>
    rw [idBytes, List.flatMap_cons, List.length_append, length_toLE, List.length_cons, ← idBytes, ih]
    omega

theorem reads_ids (ids : List UInt64) : Reads (readIds ids.length) (idBytes ids) ids := by
  refine Reads.times fun id _ => ?_
  have hr := (reads_number (show id.toNat < 256 ^ 8 from id.toNat_lt)).map (f := UInt64.ofNat)
  rwa [UInt64.ofNat_toNat] at hr

theorem readIds_eq_some {n : ℕ} {bs rest : Bytes} {ids : List UInt64} (h : readIds n bs = some (ids, rest)) :
    ids.length = n ∧ bs = idBytes ids ++ rest := by
  have hid : Exact (UInt64.ofNat <$> number 8) fun id => toLE 8 id.toNat := by
    intro bs id rest hread
    obtain ⟨⟨m, bs1⟩, hm, heq⟩ := Option.bind_eq_some_iff.mp hread
    obtain ⟨rfl, rfl⟩ := Prod.mk.inj (Option.some.inj heq)
    obtain ⟨hlt, rfl⟩ := number_eq_some hm
    dsimp only
    rw [UInt64.toNat_ofNat_of_lt' hlt]
  exact hid.times h

/-! ### The log -/

/-- An entry of the log. -/
structure WalEntry where
  op : UInt8
  nodeId : UInt64
  lineageOp : UInt8
  parents : List UInt64
  timestamp : UInt32
  deriving DecidableEq, Repr

namespace WalEntry

def recordLineage : UInt8 := 0x01

def removeNode : UInt8 := 0x02

def markRemoved : UInt8 := 0x03

/-- The header and the parents. -/
def payload (e : WalEntry) : Bytes :=
  pack [(1, e.op.toNat), (8, e.nodeId.toNat), (1, e.lineageOp.toNat), (2, e.parents.length), (4, e.timestamp.toNat)] ++
    idBytes e.parents

def encode (e : WalEntry) : Bytes := e.payload ++ toLE 4 (crc32 e.payload).toNat

/-- The next entry, if it is whole and its checksum is right. -/
def read : Reader WalEntry := do
  let op ← number 1
  let nodeId ← number 8
  let lineageOp ← number 1
  let parentCount ← number 2
  let timestamp ← number 4
  let parents ← readIds parentCount
  let crc ← number 4
  let e : WalEntry := ⟨UInt8.ofNat op, UInt64.ofNat nodeId, UInt8.ofNat lineageOp, parents, UInt32.ofNat timestamp⟩
  if (crc32 e.payload).toNat = crc then pure e else failure

/-- The number of parents fits its field. -/
def Fits (e : WalEntry) : Prop := e.parents.length < 65536

instance (e : WalEntry) : Decidable e.Fits := inferInstanceAs (Decidable (_ < _))

theorem length_encode (e : WalEntry) : e.encode.length = 20 + 8 * e.parents.length := by
  simp [encode, payload, length_pack, length_idBytes]
  omega

theorem reads_read {e : WalEntry} (h : e.Fits) : Reads read e.encode e := by
  have hop : Reads (number 1) (toLE 1 e.op.toNat) e.op.toNat := reads_number e.op.toNat_lt
  have hnode : Reads (number 8) (toLE 8 e.nodeId.toNat) e.nodeId.toNat := reads_number e.nodeId.toNat_lt
  have hlop : Reads (number 1) (toLE 1 e.lineageOp.toNat) e.lineageOp.toNat := reads_number e.lineageOp.toNat_lt
  have hcount : Reads (number 2) (toLE 2 e.parents.length) e.parents.length := reads_number h
  have htime : Reads (number 4) (toLE 4 e.timestamp.toNat) e.timestamp.toNat := reads_number e.timestamp.toNat_lt
  have hids := reads_ids e.parents
  have hcrc : Reads (number 4) (toLE 4 (crc32 e.payload).toNat) (crc32 e.payload).toNat :=
    reads_number (crc32 e.payload).toNat_lt
  have henc : e.encode = toLE 1 e.op.toNat ++ (toLE 8 e.nodeId.toNat ++ (toLE 1 e.lineageOp.toNat ++
      (toLE 2 e.parents.length ++ (toLE 4 e.timestamp.toNat ++ (idBytes e.parents ++
        (toLE 4 (crc32 e.payload).toNat ++ [])))))) := by
    simp [encode, payload, pack]
  rw [henc]
  refine hop.bind (hnode.bind (hlop.bind (hcount.bind (htime.bind (hids.bind (hcrc.bind ?_))))))
  simp only [UInt8.ofNat_toNat, UInt64.ofNat_toNat, UInt32.ofNat_toNat, if_true]
  exact Reads.pure e

/-- Only encodings of entries that fit are read. -/
theorem of_read {bs rest : Bytes} {e : WalEntry} (h : read bs = some (e, rest)) : e.Fits ∧ bs = e.encode ++ rest := by
  obtain ⟨⟨op, bs1⟩, hop, h⟩ := Option.bind_eq_some_iff.mp h
  obtain ⟨⟨nodeId, bs2⟩, hnode, h⟩ := Option.bind_eq_some_iff.mp h
  obtain ⟨⟨lineageOp, bs3⟩, hlop, h⟩ := Option.bind_eq_some_iff.mp h
  obtain ⟨⟨count, bs4⟩, hcount, h⟩ := Option.bind_eq_some_iff.mp h
  obtain ⟨⟨timestamp, bs5⟩, htime, h⟩ := Option.bind_eq_some_iff.mp h
  obtain ⟨⟨parents, bs6⟩, hids, h⟩ := Option.bind_eq_some_iff.mp h
  obtain ⟨⟨crc, bs7⟩, hcrc, h⟩ := Option.bind_eq_some_iff.mp h
  dsimp only at h hop hnode hlop hcount htime hids hcrc
  split at h
  · rename_i heq
    obtain ⟨rfl, rfl⟩ := Prod.mk.inj (Option.some.inj h)
    obtain ⟨hlt1, rfl⟩ := number_eq_some hop
    obtain ⟨hlt2, rfl⟩ := number_eq_some hnode
    obtain ⟨hlt3, rfl⟩ := number_eq_some hlop
    obtain ⟨hlt4, rfl⟩ := number_eq_some hcount
    obtain ⟨hlt5, rfl⟩ := number_eq_some htime
    obtain ⟨rfl, rfl⟩ := readIds_eq_some hids
    obtain ⟨hlt7, rfl⟩ := number_eq_some hcrc
    refine ⟨hlt4, ?_⟩
    rw [encode, heq]
    simp only [payload, UInt8.toNat_ofNat_of_lt' hlt1, UInt64.toNat_ofNat_of_lt' hlt2, UInt8.toNat_ofNat_of_lt' hlt3,
      UInt32.toNat_ofNat_of_lt' hlt5]
    simp [pack]
  · cases h

theorem frames_read : Frames read encode Fits where
  reads := reads_read
  ok := of_read
  pos e := by rw [length_encode]; omega

end WalEntry

/-- The entries of the log, up to the first that is cut or damaged. -/
def replay (wal : Bytes) : List WalEntry := all WalEntry.read wal

theorem replay_append {es : List WalEntry} (h : ∀ e ∈ es, e.Fits) (rest : Bytes) :
    replay (es.flatMap WalEntry.encode ++ rest) = es ++ replay rest :=
  WalEntry.frames_read.advances.all_append rest fun e he => WalEntry.reads_read (h e he)

theorem replay_encode {es : List WalEntry} (h : ∀ e ∈ es, e.Fits) : replay (es.flatMap WalEntry.encode) = es := by
  have happ := replay_append h []
  rwa [List.append_nil, show replay [] = [] from rfl, List.append_nil] at happ

/-- A call that changes the index; lineage is recorded at a time of the clock. -/
inductive Change
  | recordLineage (child : UInt64) (parents : List UInt64) (op : LineageOp) (now : UInt32)
  | removeNode (id : UInt64)
  | markRemoved (id : UInt64)
  deriving DecidableEq, Repr

namespace Change

/-- The entry of the call. -/
def entry : Change → WalEntry
  | .recordLineage child parents op now => ⟨WalEntry.recordLineage, child, Coded.toByte op, parents, now⟩
  | .removeNode id => ⟨WalEntry.removeNode, id, 0, [], 0⟩
  | .markRemoved id => ⟨WalEntry.markRemoved, id, 0, [], 0⟩

/-- What the call does in memory. -/
def applyTo (x : LineageIndex) : Change → LineageIndex
  | .recordLineage child parents op now => x.record ⟨child, parents, op, now⟩
  | .removeNode id => x.remove id
  | .markRemoved id => x.mark id

end Change

/-! ### The snapshot -/

structure SnapshotRecord where
  childId : UInt64
  parentIds : List UInt64
  op : UInt8
  createdAt : UInt32
  deriving DecidableEq, Repr

def snapshotMagic : ℕ := 0x4C574C53

def snapshotVersion : ℕ := 1

namespace SnapshotRecord

def encode (r : SnapshotRecord) : Bytes :=
  pack [(8, r.childId.toNat), (1, r.op.toNat), (2, r.parentIds.length), (4, r.createdAt.toNat)] ++ idBytes r.parentIds

/-- The fields in front of the parents: the child, the operation, how many
parents, the time. -/
def readEntry : Reader (ℕ × ℕ × ℕ × ℕ) := do
  let childId ← number 8
  let op ← number 1
  let parentCount ← number 2
  let createdAt ← number 4
  pure (childId, op, parentCount, createdAt)

/-- At most `n` records, up to the first that is cut, and what is left behind
what has been read. -/
def readAll : ℕ → Bytes → List SnapshotRecord × Bytes
  | 0, bs => ([], bs)
  | n + 1, bs =>
    match readEntry bs with
    | none => ([], bs)
    | some ((childId, op, parentCount, createdAt), rest) =>
      match readIds parentCount rest with
      | none => ([], rest)
      | some (parents, rest) =>
        (⟨UInt64.ofNat childId, parents, UInt8.ofNat op, UInt32.ofNat createdAt⟩ :: (readAll n rest).1,
          (readAll n rest).2)

def Fits (r : SnapshotRecord) : Prop := r.parentIds.length < 65536

theorem reads_entry {r : SnapshotRecord} (h : r.Fits) :
    Reads readEntry (pack [(8, r.childId.toNat), (1, r.op.toNat), (2, r.parentIds.length), (4, r.createdAt.toNat)])
      (r.childId.toNat, r.op.toNat, r.parentIds.length, r.createdAt.toNat) := by
  have hchild : Reads (number 8) (toLE 8 r.childId.toNat) r.childId.toNat := reads_number r.childId.toNat_lt
  have hop : Reads (number 1) (toLE 1 r.op.toNat) r.op.toNat := reads_number r.op.toNat_lt
  have hcount : Reads (number 2) (toLE 2 r.parentIds.length) r.parentIds.length := reads_number h
  have htime : Reads (number 4) (toLE 4 r.createdAt.toNat) r.createdAt.toNat := reads_number r.createdAt.toNat_lt
  have hpack : pack [(8, r.childId.toNat), (1, r.op.toNat), (2, r.parentIds.length), (4, r.createdAt.toNat)] =
      toLE 8 r.childId.toNat ++ (toLE 1 r.op.toNat ++
        (toLE 2 r.parentIds.length ++ (toLE 4 r.createdAt.toNat ++ []))) := by
    simp [pack]
  rw [hpack]
  exact hchild.bind (hop.bind (hcount.bind (htime.bind (Reads.pure _))))

theorem readAll_encode (rest : Bytes) : ∀ {rs : List SnapshotRecord}, (∀ r ∈ rs, r.Fits) →
    readAll rs.length (rs.flatMap encode ++ rest) = (rs, rest)
  | [], _ => rfl
  | r :: rs, h => by
    have hentry := reads_entry (h r List.mem_cons_self) (idBytes r.parentIds ++ (rs.flatMap encode ++ rest))
    have hids := reads_ids r.parentIds (rs.flatMap encode ++ rest)
    have htail := readAll_encode rest fun x hx => h x (List.mem_cons_of_mem _ hx)
    have hbytes : (r :: rs).flatMap encode ++ rest =
        pack [(8, r.childId.toNat), (1, r.op.toNat), (2, r.parentIds.length), (4, r.createdAt.toNat)] ++
          (idBytes r.parentIds ++ (rs.flatMap encode ++ rest)) := by
      simp [encode]
    rw [hbytes, List.length_cons, readAll, hentry]
    dsimp only
    rw [hids]
    dsimp only
    rw [htail, UInt64.ofNat_toNat, UInt8.ofNat_toNat, UInt32.ofNat_toNat]

end SnapshotRecord

/-- What follows the header of the snapshot. -/
def snapshotBody (records : List SnapshotRecord) (removed : List UInt64) : Bytes :=
  records.flatMap SnapshotRecord.encode ++ (toLE 8 removed.length ++ idBytes removed)

/-- The snapshot file of the records and the removed nodes. -/
def snapshotBytes (records : List SnapshotRecord) (removed : List UInt64) : Bytes :=
  pack [(4, snapshotMagic), (4, snapshotVersion), (8, records.length),
    (4, (crc32 (snapshotBody records removed)).toNat)] ++
    snapshotBody records removed

structure SnapshotHeader where
  magic : ℕ
  version : ℕ
  recordCount : ℕ
  crc : ℕ

def snapshotHeader : Reader SnapshotHeader := do
  let magic ← number 4
  let version ← number 4
  let recordCount ← number 8
  let crc ← number 4
  pure ⟨magic, version, recordCount, crc⟩

/-- The removed nodes behind the records, none if they are cut. -/
def readRemoved (bs : Bytes) : List UInt64 :=
  match number 8 bs with
  | none => []
  | some (n, rest) =>
    match readIds n rest with
    | none => []
    | some (ids, _) => ids

/-- Records and removed nodes of the snapshot; none if there is no file, or it is
no snapshot or damaged. -/
def loadSnapshot (file : Option Bytes) : List SnapshotRecord × List UInt64 :=
  match file.bind snapshotHeader with
  | none => ([], [])
  | some (h, body) =>
    if h.magic ≠ snapshotMagic ∨ h.version ≠ snapshotVersion then ([], [])
    else if body ≠ [] ∧ (crc32 body).toNat ≠ h.crc then ([], [])
    else ((SnapshotRecord.readAll h.recordCount body).1, readRemoved (SnapshotRecord.readAll h.recordCount body).2)

theorem reads_snapshotHeader {count : ℕ} (hcount : count < 2 ^ 64) (crc : UInt32) :
    Reads snapshotHeader (pack [(4, snapshotMagic), (4, snapshotVersion), (8, count), (4, crc.toNat)])
      ⟨snapshotMagic, snapshotVersion, count, crc.toNat⟩ := by
  have hmagic : Reads (number 4) (toLE 4 snapshotMagic) snapshotMagic := reads_number (by decide)
  have hversion : Reads (number 4) (toLE 4 snapshotVersion) snapshotVersion := reads_number (by decide)
  have hcount : Reads (number 8) (toLE 8 count) count := reads_number (lt_of_lt_of_le hcount (by decide))
  have hcrc : Reads (number 4) (toLE 4 crc.toNat) crc.toNat := reads_number crc.toNat_lt
  have hpack : pack [(4, snapshotMagic), (4, snapshotVersion), (8, count), (4, crc.toNat)] =
      toLE 4 snapshotMagic ++ (toLE 4 snapshotVersion ++ (toLE 8 count ++ (toLE 4 crc.toNat ++ []))) := by simp [pack]
  rw [hpack]
  exact hmagic.bind (hversion.bind (hcount.bind (hcrc.bind (Reads.pure _))))

theorem readRemoved_ids {ids : List UInt64} (h : ids.length < 2 ^ 64) :
    readRemoved (toLE 8 ids.length ++ idBytes ids) = ids := by
  have hcount : number 8 (toLE 8 ids.length ++ idBytes ids) = some (ids.length, idBytes ids) :=
    reads_number (lt_of_lt_of_le h (by decide)) (idBytes ids)
  have hids : readIds ids.length (idBytes ids) = some (ids, []) := by
    have := reads_ids ids []
    rwa [List.append_nil] at this
  unfold readRemoved
  rw [hcount]
  dsimp only
  rw [hids]

/-- A snapshot is loaded with what was written to it. -/
theorem loadSnapshot_snapshotBytes {records : List SnapshotRecord} {removed : List UInt64}
    (hfits : ∀ r ∈ records, r.Fits) (hrecords : records.length < 2 ^ 64) (hremoved : removed.length < 2 ^ 64) :
    loadSnapshot (some (snapshotBytes records removed)) = (records, removed) := by
  have hread := reads_snapshotHeader hrecords (crc32 (snapshotBody records removed)) (snapshotBody records removed)
  have hall : SnapshotRecord.readAll records.length (snapshotBody records removed) =
      (records, toLE 8 removed.length ++ idBytes removed) := SnapshotRecord.readAll_encode _ hfits
  unfold loadSnapshot snapshotBytes
  rw [Option.bind_some, hread]
  dsimp only
  rw [if_neg (by simp), if_neg (by simp), hall, readRemoved_ids hremoved]

/-! ### Recovery -/

/-- The orders in which the hash tables are walked through. -/
structure Orders where
  records : List UInt64 → List UInt64
  records_perm : ∀ l, (records l).Perm l
  removed : List UInt64 → List UInt64
  removed_perm : ∀ l, (removed l).Perm l

/-- The record that an entry of the log writes. -/
def WalEntry.toRecord (e : WalEntry) : LineageRecord :=
  ⟨e.nodeId, e.parents, Coded.ofByte .none e.lineageOp, e.timestamp⟩

def SnapshotRecord.toRecord (r : SnapshotRecord) : LineageRecord :=
  ⟨r.childId, r.parentIds, Coded.ofByte .none r.op, r.createdAt⟩

def SnapshotRecord.ofRecord (r : LineageRecord) : SnapshotRecord :=
  ⟨r.childId, r.parentIds, Coded.toByte r.op, r.createdAt⟩

@[simp] theorem SnapshotRecord.toRecord_ofRecord (r : LineageRecord) : (SnapshotRecord.ofRecord r).toRecord = r := by
  simp [SnapshotRecord.ofRecord, SnapshotRecord.toRecord]

namespace LineageIndex

variable (x : LineageIndex)

/-- An entry of the log on top of the index. -/
def replayEntry (x : LineageIndex) (e : WalEntry) : LineageIndex :=
  if e.op = WalEntry.recordLineage then x.record e.toRecord
  else if e.op = WalEntry.removeNode then x.remove e.nodeId
  else if e.op = WalEntry.markRemoved then x.mark e.nodeId
  else x

/-- Records and removed nodes of a snapshot in an empty index. -/
def load (snapshot : List SnapshotRecord × List UInt64) : LineageIndex :=
  snapshot.2.foldl mark (snapshot.1.foldl (fun x r => x.record r.toRecord) {})

/-- A new index on the directory. -/
def recover (d : Dir) : LineageIndex := (replay d.wal).foldl replayEntry (load (loadSnapshot d.snapshot))

/-- The records a checkpoint writes. -/
def gatherRecords (o : Orders) : List SnapshotRecord :=
  (o.records x.childToRecord.keys).filterMap fun id => (x.childToRecord.lookup id).map SnapshotRecord.ofRecord

/-- What an entry writes. -/
def entryPatch (e : WalEntry) : Patch LineageKey (Option Fact) :=
  if e.op = WalEntry.recordLineage then storePatch e.toRecord
  else if e.op = WalEntry.removeNode then removePatch e.nodeId
  else if e.op = WalEntry.markRemoved then markPatch e.nodeId
  else Patch.keep

/-- The directory read as patches of the records and the removed nodes. -/
def reading : Reading LineageKey (Option Fact) where
  base file := Patch.applyAll ((loadSnapshot file).1.map (fun r => storePatch r.toRecord) ++
    (loadSnapshot file).2.map markPatch) fun _ => none
  patches wal := (replay wal).map entryPatch
  patches_nil := rfl

variable {x}

theorem base_eq (file : Option Bytes) : reading.base file = Patch.applyAll
    ((loadSnapshot file).1.map (fun r => storePatch r.toRecord) ++ (loadSnapshot file).2.map markPatch) fun _ =>
      none := rfl

theorem Own.replayEntry (h : x.Own) (e : WalEntry) : (x.replayEntry e).Own := by
  unfold LineageIndex.replayEntry
  split
  · exact h.record _
  · split
    · exact h.remove _
    · split <;> exact h

theorem view_replayEntry (x : LineageIndex) (e : WalEntry) : (x.replayEntry e).view = (entryPatch e).apply x.view := by
  unfold LineageIndex.replayEntry entryPatch
  by_cases hrecord : e.op = WalEntry.recordLineage
  · rw [if_pos hrecord, if_pos hrecord]
    exact view_record ..
  · rw [if_neg hrecord, if_neg hrecord]
    by_cases hremove : e.op = WalEntry.removeNode
    · rw [if_pos hremove, if_pos hremove]
      exact view_remove ..
    · rw [if_neg hremove, if_neg hremove]
      by_cases hmark : e.op = WalEntry.markRemoved
      · rw [if_pos hmark, if_pos hmark]
        exact view_mark ..
      · rw [if_neg hmark, if_neg hmark]
        rfl

/-- A call does in memory what its entry does in a replay. -/
theorem applyTo_eq (c : Change) : c.applyTo x = x.replayEntry c.entry := by
  cases c with
  | recordLineage child parents op now =>
    show x.record ⟨child, parents, op, now⟩ = x.record ⟨child, parents, Coded.ofByte .none (Coded.toByte op), now⟩
    rw [Coded.ofByte_toByte]
  | removeNode id => rfl
  | markRemoved id => rfl

theorem replay_spec : ∀ (es : List WalEntry) {x : LineageIndex}, x.Own → (es.foldl replayEntry x).Own ∧
    (es.foldl replayEntry x).view = Patch.applyAll (es.map entryPatch) x.view
  | [], _, h => ⟨h, rfl⟩
  | e :: es, x, h => by
    obtain ⟨hown, hview⟩ := replay_spec es (h.replayEntry e)
    refine ⟨hown, ?_⟩
    rw [List.foldl_cons, hview, view_replayEntry, List.map_cons, Patch.applyAll_cons]

theorem load_spec (rs : List SnapshotRecord) (ids : List UInt64) : (load (rs, ids)).Own ∧ (load (rs, ids)).view =
    Patch.applyAll (rs.map (fun r => storePatch r.toRecord) ++ ids.map markPatch) fun _ => none := by
  have hrecords : ∀ (rs : List SnapshotRecord) {x : LineageIndex}, x.Own →
      (rs.foldl (fun x r => x.record r.toRecord) x).Own ∧ (rs.foldl (fun x r => x.record r.toRecord) x).view =
        Patch.applyAll (rs.map fun r => storePatch r.toRecord) x.view := by
    intro rs
    induction rs with
    | nil => exact fun h => ⟨h, rfl⟩
    | cons r rs ih =>
      intro x h
      obtain ⟨hown, hview⟩ := ih (h.record r.toRecord)
      exact ⟨hown, by rw [List.foldl_cons, hview, view_record, List.map_cons, Patch.applyAll_cons]⟩
  have hmarks : ∀ (ids : List UInt64) {x : LineageIndex}, x.Own → (ids.foldl mark x).Own ∧
      (ids.foldl mark x).view = Patch.applyAll (ids.map markPatch) x.view := by
    intro ids
    induction ids with
    | nil => exact fun h => ⟨h, rfl⟩
    | cons id ids ih =>
      intro x h
      obtain ⟨hown, hview⟩ := ih (x := x.mark id) h
      exact ⟨hown, by rw [List.foldl_cons, hview, view_mark, List.map_cons, Patch.applyAll_cons]⟩
  obtain ⟨hown, hview⟩ := hrecords rs own_empty
  obtain ⟨hown', hview'⟩ := hmarks ids hown
  refine ⟨hown', hview'.trans ?_⟩
  rw [hview, Patch.applyAll_append]
  congr 2
  funext k
  cases k <;> rfl

theorem own_recover (d : Dir) : (recover d).Own := (replay_spec _ (load_spec _ _).1).1

/-- A new index has what the directory is read as. -/
theorem view_recover (d : Dir) : (recover d).view = reading.view d := by
  have hload := load_spec (loadSnapshot d.snapshot).1 (loadSnapshot d.snapshot).2
  exact (replay_spec (replay d.wal) hload.1).2.trans (by rw [hload.2]; rfl)

/-- The number of parents of every record fits its field. -/
def Fits (x : LineageIndex) : Prop := ∀ child r, x.childToRecord.lookup child = some r → r.parentIds.length < 65536

theorem mem_gatherRecords {o : Orders} {s : SnapshotRecord} : s ∈ x.gatherRecords o ↔
    ∃ child r, x.childToRecord.lookup child = some r ∧ SnapshotRecord.ofRecord r = s := by
  unfold gatherRecords
  rw [List.mem_filterMap]
  constructor
  · rintro ⟨child, -, hs⟩
    obtain ⟨r, hr, hs⟩ := Option.map_eq_some_iff.mp hs
    exact ⟨child, r, hr, hs⟩
  · rintro ⟨child, r, hr, hs⟩
    refine ⟨child, (o.records_perm _).mem_iff.mpr ?_, by rw [hr, Option.map_some, hs]⟩
    by_contra hno
    rw [AList.lookup_eq_none.mpr hno] at hr
    cases hr

/-- **The snapshot of an index holds its records and its removed nodes.** -/
theorem base_snapshotBytes (o : Orders) (hown : x.Own) (hfits : x.Fits) (hrecords : (x.gatherRecords o).length < 2 ^ 64)
    (hremoved : (o.removed x.removedNodes).length < 2 ^ 64) :
    reading.base (some (snapshotBytes (x.gatherRecords o) (o.removed x.removedNodes))) = x.view := by
  have hsmall : ∀ s ∈ x.gatherRecords o, s.Fits := by
    intro s hs
    obtain ⟨child, r, hr, rfl⟩ := mem_gatherRecords.mp hs
    exact hfits child r hr
  rw [base_eq, loadSnapshot_snapshotBytes hsmall hrecords hremoved]
  refine Patch.applyAll_of_agrees (fun p hp => ?_) fun k => ?_
  · rcases List.mem_append.mp hp with hp | hp
    · obtain ⟨s, hs, rfl⟩ := List.mem_map.mp hp
      obtain ⟨child, r, hr, rfl⟩ := mem_gatherRecords.mp hs
      intro k v hk
      rw [SnapshotRecord.toRecord_ofRecord, storePatch] at hk
      split at hk
      · rename_i hkey
        rw [hkey, view, hown child r hr, hr]
        exact Option.some.inj hk
      · cases hk
    · obtain ⟨id, hid, rfl⟩ := List.mem_map.mp hp
      intro k v hk
      unfold markPatch at hk
      split at hk
      · rename_i hkey
        rw [hkey, view, if_pos ((o.removed_perm _).mem_iff.mp hid)]
        exact Option.some.inj hk
      · cases hk
  · cases hv : x.view k with
    | none => exact Or.inr rfl
    | some f =>
      refine Or.inl ?_
      cases k with
      | record child =>
        obtain ⟨r, hr, -⟩ := Option.map_eq_some_iff.mp hv
        have hmem : SnapshotRecord.ofRecord r ∈ x.gatherRecords o := mem_gatherRecords.mpr ⟨child, r, hr, rfl⟩
        refine ⟨_, List.mem_append_left _ (List.mem_map_of_mem hmem), ?_⟩
        simp [storePatch, hown child r hr]
      | removed id =>
        have hid : id ∈ x.removedNodes := by
          by_contra hno
          rw [view, if_neg hno] at hv
          cases hv
        refine ⟨_, List.mem_append_right _ (List.mem_map_of_mem ((o.removed_perm _).mem_iff.mpr hid)), ?_⟩
        simp [markPatch]

end LineageIndex

end Lineage
end Amind
