/-
# The file of the index

The graph is saved to one file: a header, the nodes with their vectors and, for
each layer up to its level, the list of a node's neighbours, and a checksum that
is found by the size of the file. An index that is loaded takes the nodes, the
entry point and the highest level from the file and counts the active nodes.

`load_save_iff` says that what is saved is loaded, if and only if the dimension
fits the 32 bits it has in the header.
-/
import Amind.Vector.ColdTierFile
import Amind.Vector.Shape

namespace Amind
namespace Vector
namespace HNSWIndex

open Amind.Core LittleEndian ByteReader

variable {F : Type}

/-! ### Signed numbers -/

/-- The 32 bits of a signed number. -/
def int32Bits (z : ℤ) : ℕ := (z % 2 ^ 32).toNat

/-- The signed number of 32 bits. -/
def ofInt32Bits (n : ℕ) : ℤ := if n < 2 ^ 31 then n else n - 2 ^ 32

theorem int32Bits_lt (z : ℤ) : int32Bits z < 256 ^ 4 := by
  unfold int32Bits
  omega

theorem ofInt32Bits_int32Bits {z : ℤ} (hlo : -2 ^ 31 ≤ z) (hhi : z < 2 ^ 31) : ofInt32Bits (int32Bits z) = z := by
  unfold ofInt32Bits int32Bits
  split <;> omega

/-- Read a signed number of 32 bits. -/
def int32 : Reader ℤ := ofInt32Bits <$> number 4

theorem reads_int32 {z : ℤ} (hlo : -2 ^ 31 ≤ z) (hhi : z < 2 ^ 31) : Reads int32 (toLE 4 (int32Bits z)) z := by
  have h := (reads_number (int32Bits_lt z)).map (f := ofInt32Bits)
  rwa [ofInt32Bits_int32Bits hlo hhi] at h

/-! ### Saving -/

def hnswMagic : ℕ := 0x484E5357

def hnswVersion : ℕ := 1

variable (bits : FloatBits F) (x : HNSWIndex F)

/-- A list of neighbours: their number and their ids. -/
def listBytes (conns : List UInt64) : List UInt8 := toLE 4 conns.length ++ conns.flatMap fun id => toLE 8 id.toNat

def nodeBytes (p : UInt64 × Node F) : List UInt8 :=
  toLE 8 p.1.toNat ++ (toLE 4 (int32Bits p.2.level) ++ (toLE 1 p.2.deleted.toNat ++ (bits.encode p.2.vector ++
    (List.range (p.2.level + 1).toNat).flatMap fun l => listBytes (p.2.connections.getD l []))))

/-- The nodes in the order in which the table is walked through. -/
def nodeList (order : Shuffle) : List (UInt64 × Node F) :=
  (order.toFun x.nodes.keys).filterMap fun id => (x.getNode id).map fun n => (id, n)

/-- The header. `metric` is the byte of the configured metric. -/
def headerBytes (metric : UInt8) : List UInt8 :=
  toLE 4 hnswMagic ++ (toLE 4 hnswVersion ++ (toLE 4 x.config.dimension ++ (toLE 4 x.nodes.keys.length ++
    (toLE 8 x.entryPointId.toNat ++ (toLE 4 (int32Bits x.maxLevel) ++ (toLE 4 x.config.maxConnections ++
      (toLE 4 x.config.maxConnectionsLayer0 ++ (toLE 4 x.config.efConstruction ++ (toLE 4 x.config.efSearch ++
        toLE 1 metric.toNat)))))))))

/-- The file, if every vector is of the index's dimension. -/
def save (order : Shuffle) (metric : UInt8) : Option (List UInt8) :=
  if ∀ p ∈ x.nodeList order, p.2.vector.length = x.config.dimension then
    let data := x.headerBytes metric ++ (x.nodeList order).flatMap (nodeBytes bits)
    some (data ++ toLE 4 (crc32 data).toNat)
  else none

/-! ### Loading -/

structure Header where
  magic : ℕ
  version : ℕ
  dimension : ℕ
  nodeCount : ℕ
  entryPointId : ℕ
  maxLevel : ℤ

/-- Read the header. The parameters of the graph and the metric are not used. -/
def header : Reader Header := do
  let magic ← number 4
  let version ← number 4
  let dimension ← number 4
  let nodeCount ← number 4
  let entryPointId ← number 8
  let maxLevel ← int32
  let _ ← number 4
  let _ ← number 4
  let _ ← number 4
  let _ ← number 4
  let _ ← number 1
  pure ⟨magic, version, dimension, nodeCount, entryPointId, maxLevel⟩

def connectionList : Reader (List UInt64) := do
  let count ← number 4
  times (UInt64.ofNat <$> number 8) count

/-- Put a node that has been read, if its id has none yet. -/
def emplace (x : HNSWIndex F) (p : UInt64 × Node F) : HNSWIndex F :=
  { x with
    nodes := if (x.getNode p.1).isSome then x.nodes else x.nodes.insert p.1 p.2
    activeCount := if p.2.deleted then x.activeCount else x.activeCount + 1 }

/-- The id, level and mark of a node. -/
def nodeHeader : Reader (UInt64 × ℤ × Bool) := do
  let id ← number 8
  let level ← int32
  let deleted ← number 1
  pure (UInt64.ofNat id, level, deleted == 1)

/-- Read the nodes, and stop where the file is cut. A level below -1 throws. -/
def loadNodes : ℕ → HNSWIndex F → List UInt8 → Option (Bool × HNSWIndex F)
  | 0, x, _ => some (true, x)
  | count + 1, x, bs =>
    match nodeHeader bs with
    | none => some (false, x)
    | some ((id, level, deleted), bs) =>
      match bits.vector x.config.dimension bs with
      | none => some (false, x)
      | some (vector, bs) =>
        if level < -1 then none
        else
          match times connectionList (level + 1).toNat bs with
          | none => some (false, x)
          | some (connections, bs) =>
            loadNodes count (x.emplace (id, ⟨vector, level, deleted, connections⟩)) bs

/-- The checksum in the last four bytes is that of the bytes before. -/
def checksumOk (file : List UInt8) : Bool :=
  crc32 (file.take (file.length - 4)) = UInt32.ofNat (ofLE (file.drop (file.length - 4)))

/-- Load the file into an index: whether it was loaded, and the index then. -/
def load (file : List UInt8) : Option (Bool × HNSWIndex F) :=
  match header file with
  | none => some (false, x)
  | some (h, bs) =>
    if h.magic ≠ hnswMagic then some (false, x)
    else if h.version ≠ hnswVersion then some (false, x)
    else if h.dimension ≠ x.config.dimension then some (false, x)
    else
      (loadNodes bits h.nodeCount ⟨x.config, ∅, UInt64.ofNat h.entryPointId, h.maxLevel, 0⟩ bs).map fun r =>
        (r.1 && checksumOk file, r.2)

/-! ### What is saved is loaded -/

variable {bits x}

/-- What the fields of a node in the file hold: a level of 32 bits, a list for
each layer up to it, none of 2³² ids. -/
structure NodeFits (dim : ℕ) (n : Node F) : Prop where
  level : 0 ≤ n.level ∧ n.level < 2 ^ 31
  lists : (n.connections.length : ℤ) = n.level + 1
  short : ∀ c ∈ n.connections, c.length < 2 ^ 32
  vector : n.vector.length = dim

theorem reads_connectionList {conns : List UInt64} (h : conns.length < 2 ^ 32) :
    Reads connectionList (listBytes conns) conns := by
  have hcount : Reads (number 4) (toLE 4 conns.length) conns.length := reads_number (lt_of_lt_of_le h (by decide))
  refine hcount.bind (Reads.times fun id _ => ?_)
  have hid := (reads_number (w := 8) id.toNat_lt).map (f := UInt64.ofNat)
  rwa [UInt64.ofNat_toNat] at hid

theorem reads_nodeHeader {id : UInt64} {level : ℤ} {deleted : Bool} (h : 0 ≤ level ∧ level < 2 ^ 31) :
    Reads nodeHeader (toLE 8 id.toNat ++ (toLE 4 (int32Bits level) ++ toLE 1 deleted.toNat)) (id, level, deleted) := by
  have hid : Reads (number 8) (toLE 8 id.toNat) id.toNat := reads_number id.toNat_lt
  have hlevel : Reads int32 (toLE 4 (int32Bits level)) level := reads_int32 (by omega) h.2
  have hdeleted : Reads (number 1) (toLE 1 deleted.toNat) deleted.toNat := reads_number (by cases deleted <;> decide)
  have hr : Reads nodeHeader (toLE 8 id.toNat ++ (toLE 4 (int32Bits level) ++ (toLE 1 deleted.toNat ++ [])))
      (UInt64.ofNat id.toNat, level, deleted.toNat == 1) := hid.bind (hlevel.bind (hdeleted.bind (Reads.pure _)))
  have hmark : (deleted.toNat == 1) = deleted := by cases deleted <;> rfl
  rwa [List.append_nil, UInt64.ofNat_toNat, hmark] at hr

/-- The lists of a node, layer by layer. -/
theorem lists_eq {n : Node F} (h : (n.connections.length : ℤ) = n.level + 1) :
    (List.range (n.level + 1).toNat).flatMap (fun l => listBytes (n.connections.getD l [])) =
      n.connections.flatMap listBytes := by
  have hlen : (n.level + 1).toNat = n.connections.length := by omega
  have hmap : (List.range n.connections.length).map (fun l => n.connections.getD l []) = n.connections := by
    refine List.ext_getElem? fun i => ?_
    rw [List.getElem?_map]
    by_cases hi : i < n.connections.length
    · rw [List.getElem?_range hi, Option.map_some, List.getD_eq_getElem?_getD, List.getElem?_eq_getElem hi]
      rfl
    · rw [List.getElem?_eq_none (by simpa using hi), List.getElem?_eq_none (not_lt.mp hi)]
      rfl
  rw [hlen]
  conv_rhs => rw [← hmap]
  rw [List.flatMap_map]

/-- The nodes in front of the stream are put one after the other. -/
theorem loadNodes_nodeBytes {rest : List UInt8} : ∀ (ps : List (UInt64 × Node F)) (y : HNSWIndex F),
    (∀ p ∈ ps, NodeFits y.config.dimension p.2) →
    loadNodes bits ps.length y (ps.flatMap (nodeBytes bits) ++ rest) = some (true, ps.foldl emplace y)
  | [], _, _ => rfl
  | p :: ps, y, h => by
    have hp := h p List.mem_cons_self
    have hheader : Reads nodeHeader _ (p.1, p.2.level, p.2.deleted) := reads_nodeHeader hp.level
    have hvec := bits.reads_vector hp.vector
    have hlists : Reads (times connectionList (p.2.level + 1).toNat)
        ((List.range (p.2.level + 1).toNat).flatMap fun l => listBytes (p.2.connections.getD l [])) p.2.connections := by
      rw [lists_eq hp.lists]
      have hlen : (p.2.level + 1).toNat = p.2.connections.length := by
        have := hp.lists
        omega
      rw [hlen]
      exact Reads.times fun c hc => reads_connectionList (hp.short c hc)
    have hbytes : (p :: ps).flatMap (nodeBytes bits) ++ rest =
        (toLE 8 p.1.toNat ++ (toLE 4 (int32Bits p.2.level) ++ toLE 1 p.2.deleted.toNat)) ++ (bits.encode p.2.vector ++
          ((List.range (p.2.level + 1).toNat).flatMap (fun l => listBytes (p.2.connections.getD l [])) ++
            (ps.flatMap (nodeBytes bits) ++ rest))) := by
      simp only [List.flatMap_cons, nodeBytes, List.append_assoc]
    have hlevel := hp.level.1
    rw [List.length_cons, loadNodes, hbytes, hheader]
    dsimp only
    rw [hvec]
    dsimp only
    rw [if_neg (by omega), hlists]
    exact loadNodes_nodeBytes ps _ fun q hq => h q (List.mem_cons_of_mem _ hq)

theorem reads_header {metric : UInt8} (hcount : x.nodes.keys.length < 2 ^ 32)
    (hlevel : -1 ≤ x.maxLevel ∧ x.maxLevel < 2 ^ 31) : Reads header (x.headerBytes metric)
      ⟨hnswMagic, hnswVersion, x.config.dimension % 2 ^ 32, x.nodes.keys.length, x.entryPointId.toNat, x.maxLevel⟩ := by
  have hmagic : Reads (number 4) (toLE 4 hnswMagic) hnswMagic := reads_number (by decide)
  have hversion : Reads (number 4) (toLE 4 hnswVersion) hnswVersion := reads_number (by decide)
  have hnodes : Reads (number 4) (toLE 4 x.nodes.keys.length) x.nodes.keys.length :=
    reads_number (lt_of_lt_of_le hcount (by decide))
  have hentry : Reads (number 8) (toLE 8 x.entryPointId.toNat) x.entryPointId.toNat :=
    reads_number x.entryPointId.toNat_lt
  have hmax : Reads int32 (toLE 4 (int32Bits x.maxLevel)) x.maxLevel := reads_int32 (by omega) hlevel.2
  have hbytes : x.headerBytes metric = toLE 4 hnswMagic ++ (toLE 4 hnswVersion ++ (toLE 4 x.config.dimension ++
      (toLE 4 x.nodes.keys.length ++ (toLE 8 x.entryPointId.toNat ++ (toLE 4 (int32Bits x.maxLevel) ++
        (toLE 4 x.config.maxConnections ++ (toLE 4 x.config.maxConnectionsLayer0 ++ (toLE 4 x.config.efConstruction ++
          (toLE 4 x.config.efSearch ++ (toLE 1 metric.toNat ++ [])))))))))) := by
    rw [List.append_nil]
    rfl
  rw [hbytes]
  exact hmagic.bind (hversion.bind ((reads_number_mod 4 _).bind (hnodes.bind (hentry.bind (hmax.bind
    ((reads_number_mod 4 _).bind ((reads_number_mod 4 _).bind ((reads_number_mod 4 _).bind ((reads_number_mod 4 _).bind
      ((reads_number_mod 1 _).bind (Reads.pure _)))))))))))

theorem checksumOk_append (data : List UInt8) : checksumOk (data ++ toLE 4 (crc32 data).toNat) = true := by
  have hlen : (data ++ toLE 4 (crc32 data).toNat).length - 4 = data.length := by simp
  have hcrc : (crc32 data).toNat < 256 ^ 4 := (crc32 data).toNat_lt
  unfold checksumOk
  rw [hlen, List.take_left, List.drop_left, ofLE_toLE_of_lt hcrc, UInt32.ofNat_toNat]
  exact decide_eq_true rfl

/-! ### The nodes, put again -/

theorem nodeList_ids (order : Shuffle) : (x.nodeList order).map (·.1) = order.toFun x.nodes.keys := by
  have hall : ∀ id ∈ order.toFun x.nodes.keys, ∃ n, x.getNode id = some n := fun id hid =>
    Option.isSome_iff_exists.mp (AList.lookup_isSome.mpr ((order.perm _).mem_iff.mp hid))
  unfold nodeList
  generalize order.toFun x.nodes.keys = l at hall
  induction l with
  | nil => rfl
  | cons id l ih =>
    obtain ⟨n, hn⟩ := hall id List.mem_cons_self
    have hcons : (x.getNode id).map (fun n => (id, n)) = some (id, n) := by rw [hn, Option.map_some]
    rw [List.filterMap_cons, hcons]
    exact congrArg _ (ih fun i hi => hall i (List.mem_cons_of_mem _ hi))

theorem mem_nodeList {order : Shuffle} {id : UInt64} {n : Node F} :
    (id, n) ∈ x.nodeList order ↔ x.getNode id = some n := by
  unfold nodeList
  rw [List.mem_filterMap]
  constructor
  · rintro ⟨i, -, hi⟩
    obtain ⟨m, hm, heq⟩ := Option.map_eq_some_iff.mp hi
    cases heq
    exact hm
  · intro hn
    refine ⟨id, ?_, by rw [hn]; rfl⟩
    exact (order.perm _).mem_iff.mpr (AList.lookup_isSome.mp (Option.isSome_of_eq_some hn))

theorem countP_nodeList (order : Shuffle) :
    (x.nodeList order).countP (fun p => !p.2.deleted) = x.activeIds.card := by
  have hcount : ∀ l : List UInt64, (l.filterMap fun id => (x.getNode id).map fun n => (id, n)).countP
      (fun p => !p.2.deleted) = l.countP x.contains := by
    intro l
    induction l with
    | nil => rfl
    | cons id l ih =>
      rw [List.countP_cons, List.filterMap_cons]
      cases hn : x.getNode id with
      | none => simp [contains, hn, ih]
      | some n => simp [contains, hn, List.countP_cons, ih]
  unfold nodeList activeIds
  rw [hcount, (order.perm _).countP_eq, List.countP_eq_length_filter, ← List.toFinset_filter]
  have hnodup : (x.nodes.keys.filter x.contains).Nodup := x.nodes.nodupKeys.filter _
  rw [← List.toFinset_card_of_nodup hnodup]

theorem emplaces : ∀ (ps : List (UInt64 × Node F)) (y : HNSWIndex F), (ps.map (·.1)).Nodup →
    (∀ p ∈ ps, y.getNode p.1 = none) →
    (∀ id n, (ps.foldl emplace y).getNode id = some n ↔ (id, n) ∈ ps ∨ y.getNode id = some n) ∧
      (ps.foldl emplace y).activeCount = y.activeCount + ps.countP (fun p => !p.2.deleted) ∧
      (ps.foldl emplace y).entryPointId = y.entryPointId ∧ (ps.foldl emplace y).maxLevel = y.maxLevel
  | [], y, _, _ => by simp
  | p :: ps, y, hnodup, hnew => by
    rw [List.map_cons, List.nodup_cons] at hnodup
    have hp := hnew p List.mem_cons_self
    have hget : ∀ i, (y.emplace p).getNode i = if i = p.1 then some p.2 else y.getNode i := by
      intro i
      unfold emplace
      rw [hp, Option.isSome_none, if_neg Bool.false_ne_true]
      unfold getNode
      dsimp only
      split
      · rename_i h
        rw [h]
        exact AList.lookup_insert _
      · rename_i h
        exact AList.lookup_insert_ne h
    have hrest : ∀ q ∈ ps, (y.emplace p).getNode q.1 = none := by
      intro q hq
      rw [hget, if_neg fun h => hnodup.1 (List.mem_map.mpr ⟨q, hq, h⟩)]
      exact hnew q (List.mem_cons_of_mem _ hq)
    obtain ⟨hnodes, hcount, hentry, hmax⟩ := emplaces ps (y.emplace p) hnodup.2 hrest
    refine ⟨fun id n => ?_, ?_, hentry, hmax⟩
    · rw [List.foldl_cons, hnodes, hget, List.mem_cons]
      by_cases hid : id = p.1
      · rw [if_pos hid, hid, hp]
        constructor
        · rintro (h | h)
          · exact .inl (.inr h)
          · exact .inl (.inl (Prod.ext rfl (Option.some.inj h).symm))
        · rintro ((h | h) | h)
          · exact .inr (congrArg some (congrArg Prod.snd h).symm)
          · exact .inl h
          · cases h
      · rw [if_neg hid]
        constructor
        · rintro (h | h)
          · exact .inl (.inr h)
          · exact .inr h
        · rintro ((h | h) | h)
          · exact absurd (congrArg Prod.fst h) hid
          · exact .inl h
          · exact .inr h
    · rw [List.foldl_cons, hcount, List.countP_cons]
      unfold emplace
      cases p.2.deleted <;> simp [Nat.add_assoc, Nat.add_comm]

/-- The same graph. -/
structure Same (x x' : HNSWIndex F) : Prop where
  nodes : ∀ id, x'.getNode id = x.getNode id
  entryPointId : x'.entryPointId = x.entryPointId
  maxLevel : x'.maxLevel = x.maxLevel
  activeCount : x'.activeCount = x.activeCount

/-- Saving the index and loading the file into another one succeeds and gives the
same graph. -/
def RoundTrips (bits : FloatBits F) (x y : HNSWIndex F) (order : Shuffle) (metric : UInt8) : Prop :=
  ∃ file x', x.save bits order metric = some file ∧ y.load bits file = some (true, x') ∧ Same x x'

theorem Shaped.save_roundTrips (hx : x.Shaped) {y : HNSWIndex F} (hy : y.config.dimension = x.config.dimension)
    (hcount : x.nodes.keys.length < 2 ^ 32)
    (hlinks : ∀ id n, x.getNode id = some n → ∀ c ∈ n.connections, c.length < 2 ^ 32)
    (hlevels : ∀ id n, x.getNode id = some n → n.level < 2 ^ 31) (order : Shuffle) (metric : UInt8) :
    RoundTrips bits x y order metric ↔ x.config.dimension < 2 ^ 32 := by
  have hnode : ∀ p ∈ x.nodeList order, x.getNode p.1 = some p.2 := fun p hp => mem_nodeList.mp hp
  have hsave : x.save bits order metric = some (x.headerBytes metric ++ (x.nodeList order).flatMap (nodeBytes bits) ++
      toLE 4 (crc32 (x.headerBytes metric ++ (x.nodeList order).flatMap (nodeBytes bits))).toNat) := by
    have hvecs : ∀ p ∈ x.nodeList order, p.2.vector.length = x.config.dimension :=
      fun p hp => hx.vectors p.1 p.2 (hnode p hp)
    unfold save
    rw [if_pos hvecs]
  have hmax : -1 ≤ x.maxLevel ∧ x.maxLevel < 2 ^ 31 := by
    by_cases hkeys : x.nodes.keys = []
    · rw [hx.empty hkeys]
      decide
    · obtain ⟨e, he, hl⟩ := hx.entry hkeys
      have h0 := hx.rooted hkeys
      have hlt := hlevels _ e he
      omega
  have hlen : x.nodes.keys.length = (x.nodeList order).length := by
    rw [← List.length_map (f := Prod.fst), nodeList_ids, (order.perm _).length_eq]
  have hreads : Reads header (x.headerBytes metric) _ := reads_header hcount hmax
  have hheader := hreads ((x.nodeList order).flatMap (nodeBytes bits) ++
      toLE 4 (crc32 (x.headerBytes metric ++ (x.nodeList order).flatMap (nodeBytes bits))).toNat)
  constructor
  · rintro ⟨file, x', hfile, hload, -⟩
    -- a dimension that is cut is not the one of the index
    rw [hsave] at hfile
    by_contra hbig
    have hcut : x.config.dimension % 2 ^ 32 ≠ y.config.dimension := by
      rw [hy]
      omega
    unfold load at hload
    rw [← Option.some.inj hfile, List.append_assoc, hheader] at hload
    dsimp only at hload
    rw [if_neg (by simp), if_neg (by simp), if_pos hcut] at hload
    have := congrArg Prod.fst (Option.some.inj hload)
    cases this
  · intro hdim
    have hfits : ∀ p ∈ x.nodeList order, NodeFits y.config.dimension p.2 := fun p hp =>
      ⟨⟨(hx.levels p.1 p.2 (hnode p hp)).1, hlevels p.1 p.2 (hnode p hp)⟩, hx.lists p.1 p.2 (hnode p hp),
        hlinks p.1 p.2 (hnode p hp), (hx.vectors p.1 p.2 (hnode p hp)).trans hy.symm⟩
    refine ⟨_, (x.nodeList order).foldl emplace ⟨y.config, ∅, x.entryPointId, x.maxLevel, 0⟩, hsave, ?_, ?_⟩
    · have hok := checksumOk_append (x.headerBytes metric ++ (x.nodeList order).flatMap (nodeBytes bits))
      have hsame : x.config.dimension % 2 ^ 32 = y.config.dimension := by
        rw [hy, Nat.mod_eq_of_lt hdim]
      unfold load
      rw [hok, List.append_assoc, hheader]
      dsimp only
      rw [if_neg (by simp), if_neg (by simp), if_neg (not_not.mpr hsame), UInt64.ofNat_toNat, hlen,
        loadNodes_nodeBytes _ ⟨y.config, ∅, x.entryPointId, x.maxLevel, 0⟩ hfits]
      rfl
    · have hnodup : ((x.nodeList order).map (·.1)).Nodup := by
        rw [nodeList_ids]
        exact (order.perm _).nodup_iff.mpr x.nodes.nodupKeys
      obtain ⟨hnodes, hactive, hentry, hmaxLevel⟩ := emplaces (x.nodeList order)
        ⟨y.config, ∅, x.entryPointId, x.maxLevel, 0⟩ hnodup fun _ _ => rfl
      refine ⟨fun id => Option.ext fun n => ?_, hentry, hmaxLevel, ?_⟩
      · refine (hnodes id n).trans ?_
        rw [mem_nodeList]
        refine or_iff_left nofun
      · rw [hactive, countP_nodeList, hx.active]
        exact Nat.zero_add _

end HNSWIndex

namespace TieredIndex

open HNSWIndex Amind.Core

/-- **What is saved of an index is loaded again if and only if its dimension fits
the file**, whatever has been done to the index before. -/
theorem load_save_iff {F : Type} [Floats F] (bits : FloatBits F) (config : HNSWConfig F)
    (cold : Option (ColdTierIndex F))
    (capacity : ℕ) (evictCount : ℕ → ℕ) (cs : List (Change F)) (x : HNSWIndex F)
    (hx : x = (Run.run change ⟨{ config := config }, cold, capacity, evictCount⟩ cs).hot)
    (hcount : x.nodes.keys.length < 2 ^ 32)
    (hlinks : ∀ id n, x.getNode id = some n → ∀ c ∈ n.connections, c.length < 2 ^ 32)
    (hlevels : ∀ id n, x.getNode id = some n → n.level < 2 ^ 31) (y : HNSWIndex F)
    (hy : y.config.dimension = x.config.dimension) (order : Shuffle) (metric : UInt8) :
    RoundTrips bits x y order metric ↔ x.config.dimension < 2 ^ 32 := by
  subst hx
  exact (shaped_changes cs (shaped_new config)).save_roundTrips hy hcount hlinks hlevels order metric

/-- Bytes as floats. -/
instance byteFloats : Floats UInt8 := ⟨inferInstance, inferInstance⟩

def byteBits : FloatBits UInt8 := ⟨UInt8.toUInt32, UInt32.toUInt8, fun x => by simp⟩

/-- Bytes and their distance, in vectors of the dimension. -/
def byteConfig (dimension : ℕ) : HNSWConfig UInt8 :=
  { dimension := dimension, computeDistance := fun v w => v.headD 0 - w.headD 0 }

/-- The order of the keys. -/
def inOrder : Shuffle := ⟨fun l => l, fun l => .refl l⟩

/-- A new index, and what is done to it. -/
def byteIndex (dimension : ℕ) (cs : List (Change UInt8)) : HNSWIndex UInt8 :=
  (Run.run change ⟨{ config := byteConfig dimension }, none, 0, id⟩ cs).hot

/-- Two nodes of which one is removed. -/
def twoNodes : HNSWIndex UInt8 := byteIndex 1 [.op (.insert 1 [5] 1), .op (.insert 2 [6] 0), .op (.remove 1)]

theorem roundTrips_two : RoundTrips byteBits twoNodes twoNodes inOrder 0 := by
  have hshaped : twoNodes.Shaped := shaped_changes _ (shaped_new _)
  have hconfig : twoNodes.config.maxConnectionsLayer0 = 32 ∧ twoNodes.config.maxConnections = 16 := by decide
  have hmax : twoNodes.maxLevel = 1 := by decide
  refine (load_save_iff byteBits (byteConfig 1) none 0 id _ twoNodes rfl (by decide) ?_ ?_ twoNodes rfl inOrder
    0).mpr (by decide)
  · intro i n hn c hc
    obtain ⟨l, hl⟩ := List.getElem?_of_mem hc
    have hlen := (hshaped.linked i n hn l c hl).1
    unfold maxConnectionsForLayer at hlen
    rw [hconfig.1, hconfig.2] at hlen
    split at hlen <;> omega
  · intro i n hn
    have hle := (hshaped.levels i n hn).2
    omega

/-- An empty index of 2³² dimensions: the header says 0, and nothing is loaded. -/
theorem not_roundTrips_wide :
    ¬ RoundTrips byteBits (byteIndex (2 ^ 32) []) (byteIndex (2 ^ 32) []) inOrder 0 := by
  rintro ⟨file, x', hsave, hload, -⟩
  have hfalse : (((byteIndex (2 ^ 32) []).save byteBits inOrder 0).bind fun file =>
      ((byteIndex (2 ^ 32) []).load byteBits file).map Prod.fst) = some false := by
    decide
  rw [hsave, Option.bind_some, hload] at hfalse
  cases hfalse

end TieredIndex
end Vector
end Amind
