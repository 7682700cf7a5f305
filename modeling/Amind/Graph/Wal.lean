/-
# The files of the graph

Every added edge and removed node is a record of 30 bytes at the end of
`graph_wal.bin`, its checksum last. A checkpoint writes all edges to
`graph_snapshot.bin` and cuts the log. A new store reads the snapshot, drops it
whole if its header or its checksum is wrong, and replays the log on top up to
the first record that is cut or whose checksum is wrong.

`reading` is the directory read as patches of the edges, and `view_recover` says
that this is what `recover` does. `loadSnapshot_snapshotBytes` and
`base_snapshotBytes` say that the snapshot of a store holds its edges.
-/
import Amind.Core.Crc32
import Amind.Graph.Store
import Amind.Lib.ByteReader
import Amind.Lib.Journal
import Amind.Vector.ColdTierFile

namespace Amind
namespace Graph

open Amind.Core LittleEndian ByteReader Journal
open Amind.Vector (FloatBits)

/-! ### The log -/

/-- A record of the log; the weight as its bits. -/
structure WalRecord where
  op : UInt8
  fromId : UInt64
  toId : UInt64
  edgeType : UInt8
  weight : UInt32
  timestamp : UInt32
  deriving DecidableEq, Repr

namespace WalRecord

def addEdge : UInt8 := 0x01

def removeEdge : UInt8 := 0x02

/-- All fields but the checksum. -/
def payload (r : WalRecord) : Bytes :=
  pack [(1, r.op.toNat), (8, r.fromId.toNat), (8, r.toId.toNat), (1, r.edgeType.toNat), (4, r.weight.toNat),
    (4, r.timestamp.toNat)]

def encode (r : WalRecord) : Bytes := r.payload ++ toLE 4 (crc32 r.payload).toNat

/-- The next record, if it is whole and its checksum is right. -/
def read : Reader WalRecord := do
  let op ← number 1
  let fromId ← number 8
  let toId ← number 8
  let edgeType ← number 1
  let weight ← number 4
  let timestamp ← number 4
  let crc ← number 4
  let r : WalRecord :=
    ⟨UInt8.ofNat op, UInt64.ofNat fromId, UInt64.ofNat toId, UInt8.ofNat edgeType, UInt32.ofNat weight,
      UInt32.ofNat timestamp⟩
  if (crc32 r.payload).toNat = crc then pure r else failure

theorem length_payload (r : WalRecord) : r.payload.length = 26 := by simp [payload, length_pack]

@[simp] theorem length_encode (r : WalRecord) : r.encode.length = 30 := by simp [encode, length_payload]

theorem reads_read (r : WalRecord) : Reads read r.encode r := by
  have hop : Reads (number 1) (toLE 1 r.op.toNat) r.op.toNat := reads_number r.op.toNat_lt
  have hfrom : Reads (number 8) (toLE 8 r.fromId.toNat) r.fromId.toNat := reads_number r.fromId.toNat_lt
  have hto : Reads (number 8) (toLE 8 r.toId.toNat) r.toId.toNat := reads_number r.toId.toNat_lt
  have htype : Reads (number 1) (toLE 1 r.edgeType.toNat) r.edgeType.toNat := reads_number r.edgeType.toNat_lt
  have hweight : Reads (number 4) (toLE 4 r.weight.toNat) r.weight.toNat := reads_number r.weight.toNat_lt
  have htime : Reads (number 4) (toLE 4 r.timestamp.toNat) r.timestamp.toNat := reads_number r.timestamp.toNat_lt
  have hcrc : Reads (number 4) (toLE 4 (crc32 r.payload).toNat) (crc32 r.payload).toNat :=
    reads_number (crc32 r.payload).toNat_lt
  have henc : r.encode = toLE 1 r.op.toNat ++ (toLE 8 r.fromId.toNat ++ (toLE 8 r.toId.toNat ++
      (toLE 1 r.edgeType.toNat ++ (toLE 4 r.weight.toNat ++ (toLE 4 r.timestamp.toNat ++
        (toLE 4 (crc32 r.payload).toNat ++ [])))))) := by
    simp [encode, payload, pack]
  rw [henc]
  refine hop.bind (hfrom.bind (hto.bind (htype.bind (hweight.bind (htime.bind (hcrc.bind ?_))))))
  simp only [UInt8.ofNat_toNat, UInt64.ofNat_toNat, UInt32.ofNat_toNat, if_true]
  exact Reads.pure r

/-- Only encodings are read. -/
theorem exact_read : Exact read encode := by
  intro bs r rest h
  obtain ⟨⟨op, bs1⟩, hop, h⟩ := Option.bind_eq_some_iff.mp h
  obtain ⟨⟨fromId, bs2⟩, hfrom, h⟩ := Option.bind_eq_some_iff.mp h
  obtain ⟨⟨toId, bs3⟩, hto, h⟩ := Option.bind_eq_some_iff.mp h
  obtain ⟨⟨edgeType, bs4⟩, htype, h⟩ := Option.bind_eq_some_iff.mp h
  obtain ⟨⟨weight, bs5⟩, hweight, h⟩ := Option.bind_eq_some_iff.mp h
  obtain ⟨⟨timestamp, bs6⟩, htime, h⟩ := Option.bind_eq_some_iff.mp h
  obtain ⟨⟨crc, bs7⟩, hcrc, h⟩ := Option.bind_eq_some_iff.mp h
  dsimp only at h hop hfrom hto htype hweight htime hcrc
  split at h
  · rename_i heq
    obtain ⟨rfl, rfl⟩ := Prod.mk.inj (Option.some.inj h)
    obtain ⟨hlt1, rfl⟩ := number_eq_some hop
    obtain ⟨hlt2, rfl⟩ := number_eq_some hfrom
    obtain ⟨hlt3, rfl⟩ := number_eq_some hto
    obtain ⟨hlt4, rfl⟩ := number_eq_some htype
    obtain ⟨hlt5, rfl⟩ := number_eq_some hweight
    obtain ⟨hlt6, rfl⟩ := number_eq_some htime
    obtain ⟨hlt7, rfl⟩ := number_eq_some hcrc
    rw [encode, heq]
    simp only [payload, UInt8.toNat_ofNat_of_lt' hlt1, UInt64.toNat_ofNat_of_lt' hlt2, UInt64.toNat_ofNat_of_lt' hlt3,
      UInt8.toNat_ofNat_of_lt' hlt4, UInt32.toNat_ofNat_of_lt' hlt5, UInt32.toNat_ofNat_of_lt' hlt6]
    simp [pack]
  · cases h

theorem frames_read : Frames read encode fun _ => True where
  reads _ := reads_read _
  ok h := ⟨trivial, exact_read _ _ _ h⟩
  pos r := by rw [length_encode]; omega

end WalRecord
/-- The records of the log, up to the first that is cut or damaged. -/
def replay (wal : Bytes) : List WalRecord := all WalRecord.read wal

theorem replay_append (rs : List WalRecord) (rest : Bytes) :
    replay (rs.flatMap WalRecord.encode ++ rest) = rs ++ replay rest :=
  WalRecord.frames_read.advances.all_append rest fun r _ => r.reads_read

theorem replay_encode (rs : List WalRecord) : replay (rs.flatMap WalRecord.encode) = rs := by
  have h := replay_append rs []
  rwa [List.append_nil, show replay [] = [] from rfl, List.append_nil] at h

/-- A call that changes the edges; an edge is added at a time of the clock. -/
inductive Change (F : Type)
  | addEdge (src dst : UInt64) (type : EdgeType) (weight : F) (now : UInt32)
  | removeNode (id : UInt64)
  deriving DecidableEq, Repr

namespace Change

variable {F : Type}

/-- The record of the call. -/
def record (bits : FloatBits F) : Change F → WalRecord
  | .addEdge src dst type weight now => ⟨WalRecord.addEdge, src, dst, type.toByte, bits.toBits weight, now⟩
  | .removeNode id => ⟨WalRecord.removeEdge, id, 0, 0, 0, 0⟩

/-- What the call does in memory. -/
def applyTo (g : GraphStore F) : Change F → GraphStore F
  | .addEdge src dst type weight now => g.addEdgeInternal src dst type weight now
  | .removeNode id => g.dropNode id

end Change

/-! ### The snapshot -/

/-- An edge in the snapshot; the weight as its bits. -/
structure EdgeData where
  fromId : UInt64
  toId : UInt64
  edgeType : UInt8
  weight : UInt32
  timestamp : UInt32
  deriving DecidableEq, Repr

/-- What the program leaves open: the order in which the hash table is walked
through, and the bytes between the fields of a structure. -/
structure Unspecified where
  order : List UInt64 → List UInt64
  perm : ∀ l, (order l).Perm l
  padding : EdgeData → ℕ × ℕ

def snapshotMagic : ℕ := 0x47535348

def snapshotVersion : ℕ := 1

namespace EdgeData

/-- The bytes of the structure in memory. -/
def encode (pad : EdgeData → ℕ × ℕ) (e : EdgeData) : Bytes :=
  pack [(8, e.fromId.toNat), (8, e.toId.toNat), (1, e.edgeType.toNat), (3, (pad e).1), (4, e.weight.toNat),
    (4, e.timestamp.toNat), (4, (pad e).2)]

def read : Reader EdgeData := do
  let fromId ← number 8
  let toId ← number 8
  let edgeType ← number 1
  let _ ← number 3
  let weight ← number 4
  let timestamp ← number 4
  let _ ← number 4
  pure ⟨UInt64.ofNat fromId, UInt64.ofNat toId, UInt8.ofNat edgeType, UInt32.ofNat weight, UInt32.ofNat timestamp⟩

theorem length_encode (pad : EdgeData → ℕ × ℕ) (e : EdgeData) : (e.encode pad).length = 32 := by
  simp [encode, length_pack]

theorem reads_read (pad : EdgeData → ℕ × ℕ) (e : EdgeData) : Reads read (e.encode pad) e := by
  have hfrom : Reads (number 8) (toLE 8 e.fromId.toNat) e.fromId.toNat := reads_number e.fromId.toNat_lt
  have hto : Reads (number 8) (toLE 8 e.toId.toNat) e.toId.toNat := reads_number e.toId.toNat_lt
  have htype : Reads (number 1) (toLE 1 e.edgeType.toNat) e.edgeType.toNat := reads_number e.edgeType.toNat_lt
  have hpad := reads_number_mod 3 (pad e).1
  have hweight : Reads (number 4) (toLE 4 e.weight.toNat) e.weight.toNat := reads_number e.weight.toNat_lt
  have htime : Reads (number 4) (toLE 4 e.timestamp.toNat) e.timestamp.toNat := reads_number e.timestamp.toNat_lt
  have hend := reads_number_mod 4 (pad e).2
  have henc : e.encode pad = toLE 8 e.fromId.toNat ++ (toLE 8 e.toId.toNat ++ (toLE 1 e.edgeType.toNat ++
      (toLE 3 (pad e).1 ++ (toLE 4 e.weight.toNat ++ (toLE 4 e.timestamp.toNat ++ (toLE 4 (pad e).2 ++ [])))))) := by
    simp [encode, pack]
  rw [henc]
  refine hfrom.bind (hto.bind (htype.bind (hpad.bind (hweight.bind (htime.bind (hend.bind ?_))))))
  simp only [UInt8.ofNat_toNat, UInt64.ofNat_toNat, UInt32.ofNat_toNat]
  exact Reads.pure e

end EdgeData

/-- The snapshot file of the edges. -/
def snapshotBytes (pad : EdgeData → ℕ × ℕ) (edges : List EdgeData) : Bytes :=
  let body := edges.flatMap (EdgeData.encode pad)
  pack [(4, snapshotMagic), (4, snapshotVersion), (8, edges.length),
    (4, if body.isEmpty then 0 else (crc32 body).toNat)] ++ body

structure SnapshotHeader where
  magic : ℕ
  version : ℕ
  edgeCount : ℕ
  crc : ℕ

def snapshotHeader : Reader SnapshotHeader := do
  let magic ← number 4
  let version ← number 4
  let edgeCount ← number 8
  let crc ← number 4
  pure ⟨magic, version, edgeCount, crc⟩

/-- The edges of the snapshot; none if there is no file, or it is no snapshot, is
cut or damaged. -/
def loadSnapshot (file : Option Bytes) : List EdgeData :=
  match file.bind snapshotHeader with
  | none => []
  | some (h, rest) =>
    if h.magic ≠ snapshotMagic ∨ h.version ≠ snapshotVersion then []
    else if h.edgeCount = 0 then []
    else
      match times EdgeData.read h.edgeCount rest with
      | none => []
      | some (edges, _) => if (crc32 (rest.take (h.edgeCount * 32))).toNat = h.crc then edges else []

theorem reads_snapshotHeader {count crc : ℕ} (hcount : count < 2 ^ 64) (hcrc : crc < 2 ^ 32) :
    Reads snapshotHeader (pack [(4, snapshotMagic), (4, snapshotVersion), (8, count), (4, crc)])
      ⟨snapshotMagic, snapshotVersion, count, crc⟩ := by
  have hmagic : Reads (number 4) (toLE 4 snapshotMagic) snapshotMagic := reads_number (by decide)
  have hversion : Reads (number 4) (toLE 4 snapshotVersion) snapshotVersion := reads_number (by decide)
  have hcount : Reads (number 8) (toLE 8 count) count := reads_number (lt_of_lt_of_le hcount (by decide))
  have hcrc : Reads (number 4) (toLE 4 crc) crc := reads_number (lt_of_lt_of_le hcrc (by decide))
  have hpack : pack [(4, snapshotMagic), (4, snapshotVersion), (8, count), (4, crc)] =
      toLE 4 snapshotMagic ++ (toLE 4 snapshotVersion ++ (toLE 8 count ++ (toLE 4 crc ++ []))) := by simp [pack]
  rw [hpack]
  exact hmagic.bind (hversion.bind (hcount.bind (hcrc.bind (Reads.pure _))))

/-- A snapshot is loaded with the edges written to it. -/
theorem loadSnapshot_snapshotBytes (pad : EdgeData → ℕ × ℕ) {edges : List EdgeData} (h : edges.length < 2 ^ 64) :
    loadSnapshot (some (snapshotBytes pad edges)) = edges := by
  have hlen : (edges.flatMap (EdgeData.encode pad)).length = edges.length * 32 := by
    induction edges with
    | nil => rfl
    | cons e es ih =>
      rw [List.flatMap_cons, List.length_append, EdgeData.length_encode, ih (by rw [List.length_cons] at h; omega),
        List.length_cons]
      omega
  have hcrc : (if (edges.flatMap (EdgeData.encode pad)).isEmpty then 0
      else (crc32 (edges.flatMap (EdgeData.encode pad))).toNat) < 2 ^ 32 := by
    split
    · decide
    · exact UInt32.toNat_lt _
  have hread := reads_snapshotHeader h hcrc (edges.flatMap (EdgeData.encode pad))
  have hedges : times EdgeData.read edges.length (edges.flatMap (EdgeData.encode pad)) = some (edges, []) := by
    have := Reads.times (r := EdgeData.read) (fun e (_ : e ∈ edges) => e.reads_read pad) []
    rwa [List.append_nil] at this
  unfold loadSnapshot snapshotBytes
  rw [Option.bind_some, hread]
  dsimp only
  rw [if_neg (by simp)]
  by_cases hnil : edges = []
  · subst hnil
    rfl
  · have hpos : 0 < edges.length := List.length_pos_iff.mpr hnil
    have hbody : (edges.flatMap (EdgeData.encode pad)).isEmpty = false := by
      rw [List.isEmpty_eq_false_iff, ← List.length_pos_iff, hlen]
      omega
    rw [if_neg (by omega), hedges, hbody]
    dsimp only
    rw [← hlen, List.take_length, if_neg Bool.false_ne_true, if_pos rfl]

/-! ### Recovery -/

namespace GraphStore

variable {F : Type} (bits : FloatBits F) (g : GraphStore F)

/-- A record of the log on top of the store. -/
def replayRecord (g : GraphStore F) (r : WalRecord) : GraphStore F :=
  if r.op = WalRecord.addEdge then
    g.addEdgeInternal r.fromId r.toId (EdgeType.ofByte r.edgeType) (bits.ofBits r.weight) r.timestamp
  else if r.op = WalRecord.removeEdge then g.dropNode r.fromId
  else g

def loadEdge (g : GraphStore F) (e : EdgeData) : GraphStore F :=
  g.addEdgeInternal e.fromId e.toId (EdgeType.ofByte e.edgeType) (bits.ofBits e.weight) e.timestamp

/-- A new store on the directory. -/
def recover (d : Dir) : GraphStore F :=
  (replay d.wal).foldl (replayRecord bits) ((loadSnapshot d.snapshot).foldl (loadEdge bits) {})

/-- The edges a checkpoint writes. -/
def gather (u : Unspecified) : List EdgeData :=
  (u.order g.adjacency.keys).flatMap fun id => ((g.getEdges id).filter fun e => e.fromId = id).map fun e =>
    ⟨e.fromId, e.toId, e.type.toByte, bits.toBits e.weight, e.createdAt⟩

/-- What a record writes. -/
def recordPatch (r : WalRecord) : Patch EdgeKey (Option (F × UInt32)) :=
  if r.op = WalRecord.addEdge then
    addPatch r.fromId r.toId (EdgeType.ofByte r.edgeType) (bits.ofBits r.weight) r.timestamp
  else if r.op = WalRecord.removeEdge then dropPatch F r.fromId
  else Patch.keep

/-- What an edge of the snapshot writes. -/
def dataPatch (e : EdgeData) : Patch EdgeKey (Option (F × UInt32)) :=
  addPatch e.fromId e.toId (EdgeType.ofByte e.edgeType) (bits.ofBits e.weight) e.timestamp

/-- The directory read as patches of the edges. -/
def reading : Reading EdgeKey (Option (F × UInt32)) where
  base file := Patch.applyAll ((loadSnapshot file).map (dataPatch bits)) fun _ => none
  patches wal := (replay wal).map (recordPatch bits)
  patches_nil := rfl

variable {bits g}

theorem base_eq (file : Option Bytes) :
    (reading bits).base file = Patch.applyAll ((loadSnapshot file).map (dataPatch bits)) fun _ => none := rfl

theorem WellFormed.replayRecord (h : g.WellFormed) (r : WalRecord) : (g.replayRecord bits r).WellFormed := by
  unfold GraphStore.replayRecord
  split
  · exact h.addEdgeInternal ..
  · split
    · exact h.dropNode _
    · exact h

theorem view_replayRecord (h : g.WellFormed) (r : WalRecord) :
    (g.replayRecord bits r).view = (recordPatch bits r).apply g.view := by
  unfold GraphStore.replayRecord recordPatch
  by_cases hadd : r.op = WalRecord.addEdge
  · rw [if_pos hadd, if_pos hadd]
    exact view_addEdgeInternal ..
  · rw [if_neg hadd, if_neg hadd]
    by_cases hremove : r.op = WalRecord.removeEdge
    · rw [if_pos hremove, if_pos hremove]
      exact view_dropNode h.toIndexed _
    · rw [if_neg hremove, if_neg hremove]
      rfl

/-- A call does in memory what its record does in a replay. -/
theorem applyTo_eq (c : Change F) : c.applyTo g = g.replayRecord bits (c.record bits) := by
  cases c with
  | addEdge src dst type weight now =>
    simp [Change.applyTo, replayRecord, Change.record, bits.ofBits_toBits]
  | removeNode id => rfl

theorem replay_spec : ∀ (rs : List WalRecord) {g : GraphStore F}, g.WellFormed →
    (rs.foldl (replayRecord bits) g).WellFormed ∧
      (rs.foldl (replayRecord bits) g).view = Patch.applyAll (rs.map (recordPatch bits)) g.view
  | [], _, h => ⟨h, rfl⟩
  | r :: rs, g, h => by
    obtain ⟨hwf, hview⟩ := replay_spec rs (h.replayRecord r)
    refine ⟨hwf, ?_⟩
    rw [List.foldl_cons, hview, view_replayRecord h, List.map_cons, Patch.applyAll_cons]

theorem load_spec : ∀ (es : List EdgeData) {g : GraphStore F}, g.WellFormed →
    (es.foldl (loadEdge bits) g).WellFormed ∧
      (es.foldl (loadEdge bits) g).view = Patch.applyAll (es.map (dataPatch bits)) g.view
  | [], _, h => ⟨h, rfl⟩
  | e :: es, g, h => by
    have hone : (g.loadEdge bits e).WellFormed := h.addEdgeInternal ..
    obtain ⟨hwf, hview⟩ := load_spec es hone
    refine ⟨hwf, ?_⟩
    rw [List.foldl_cons, hview, loadEdge, view_addEdgeInternal]
    rfl

theorem view_empty : view (F := F) {} = fun _ => none := rfl

theorem wellFormed_recover (d : Dir) : (recover bits d).WellFormed :=
  (replay_spec _ (load_spec _ wellFormed_empty).1).1

/-- A new store has what the directory is read as. -/
theorem view_recover (d : Dir) : (recover bits d).view = (reading bits).view d := by
  obtain ⟨hwf, hview⟩ : ((loadSnapshot d.snapshot).foldl (loadEdge bits) {}).WellFormed ∧ _ :=
    load_spec _ wellFormed_empty
  rw [recover, (replay_spec (replay d.wal) hwf).2, hview, view_empty]
  rfl

/-- An edge of the store is written to the snapshot. -/
theorem mem_gather (u : Unspecified) (h : g.WellFormed) {e : GraphEdge F} {id : UInt64} (he : e ∈ g.getEdges id) :
    (⟨e.fromId, e.toId, e.type.toByte, bits.toBits e.weight, e.createdAt⟩ : EdgeData) ∈ g.gather bits u := by
  have hkey : id ∈ g.adjacency.keys := by
    by_contra hno
    have hnone : g.adjacency.lookup id = none := AList.lookup_eq_none.mpr hno
    rw [getEdges, hnone] at he
    cases he
  refine List.mem_flatMap.mpr ⟨id, (u.perm _).mem_iff.mpr hkey, List.mem_map.mpr ⟨e, ?_, rfl⟩⟩
  exact List.mem_filter.mpr ⟨he, decide_eq_true (h.own id e he)⟩

/-- What the snapshot of a store writes is what the store has. -/
theorem agrees_gather (u : Unspecified) (h : g.WellFormed) {d : EdgeData} (hd : d ∈ g.gather bits u) :
    (dataPatch bits d).Agrees g.view := by
  obtain ⟨id, _, hd⟩ := List.mem_flatMap.mp hd
  obtain ⟨e, he, rfl⟩ := List.mem_map.mp hd
  have hview : g.view e.key = some (e.weight, e.createdAt) := (h.mem_getEdges.mp (List.mem_filter.mp he).1).2
  intro k v hk
  unfold dataPatch addPatch at hk
  simp only [EdgeType.ofByte_toByte, bits.ofBits_toBits] at hk
  split at hk
  · rename_i hkey
    cases Option.some.inj hk
    rcases hkey with rfl | ⟨hu, rfl⟩
    · exact hview
    · exact (h.symm e.key hu).trans hview
  · cases hk

/-- **The snapshot of a store holds its edges.** -/
theorem base_snapshotBytes (u : Unspecified) (h : g.WellFormed) (hlen : (g.gather bits u).length < 2 ^ 64) :
    (reading bits).base (some (snapshotBytes u.padding (g.gather bits u))) = g.view := by
  rw [base_eq, loadSnapshot_snapshotBytes _ hlen]
  refine Patch.applyAll_of_agrees (fun p hp => ?_) fun k => ?_
  · obtain ⟨d, hd, rfl⟩ := List.mem_map.mp hp
    exact agrees_gather u h hd
  · cases hv : g.view k with
    | none => exact Or.inr rfl
    | some v =>
      have he : (⟨k.fromId, k.toId, k.type, v.1, v.2⟩ : GraphEdge F) ∈ g.getEdges k.fromId :=
        h.mem_getEdges.mpr ⟨rfl, hv⟩
      refine Or.inl ⟨_, List.mem_map_of_mem (mem_gather u h he), ?_⟩
      simp [dataPatch, addPatch]

end GraphStore

end Graph
end Amind
