/-
# The memtable

`SkipList` is the list the skip list's bottom level links: every node, in
ascending key order, each with its value and its tombstone flag. The upper
levels only shorten the walk to the first node whose key is not below the one
asked for (`seek`). `put` replaces the value of a node it finds and clears its
flag; `remove` flags a node it finds and does nothing otherwise, so removing a
key the list does not hold leaves no trace of it.

`MemTable` is the skip list over memory ids and record bytes.
-/
import Amind.Lib.Keyed

namespace Amind
namespace Lsm

/-- A memory id. -/
abbrev Key := UInt64

/-- Serialized bytes. The empty string stands for a deleted record. -/
abbrev Bytes := List UInt8

/-- A node of the skip list. -/
structure Node (K V : Type) where
  key : K
  value : V
  isTombstone : Bool
  deriving DecidableEq, Repr

/-- The bottom level of the skip list. -/
structure SkipList (K V : Type) [LinearOrder K] where
  nodes : List (Node K V)
  sorted : nodes.Pairwise fun a b => a.key < b.key

namespace SkipList

variable {K V : Type} [LinearOrder K]

/-- The list without nodes. -/
def empty : SkipList K V := ⟨[], List.Pairwise.nil⟩

/-- The nodes from the first one not below `k` on. -/
def seek (k : K) (ns : List (Node K V)) : List (Node K V) := ns.dropWhile fun n => n.key < k

/-- The nodes after `put k v`. -/
def putNode (k : K) (v : V) : List (Node K V) → List (Node K V)
  | [] => [⟨k, v, false⟩]
  | n :: ns =>
    if n.key < k then n :: putNode k v ns
    else if n.key = k then ⟨k, v, false⟩ :: ns
    else ⟨k, v, false⟩ :: n :: ns

/-- The nodes after `remove k`: the node of `k`, if there is one, is flagged. -/
def removeNode (k : K) (ns : List (Node K V)) : List (Node K V) :=
  ns.map fun n => if n.key = k then { n with isTombstone := true } else n

theorem mem_putNode {k : K} {v : V} : ∀ {ns : List (Node K V)} {m : Node K V},
    m ∈ putNode k v ns → m = ⟨k, v, false⟩ ∨ m ∈ ns
  | [], m, h => by simpa [putNode] using h
  | n :: ns, m, h => by
    unfold putNode at h
    split at h
    · rcases List.mem_cons.mp h with rfl | h
      · exact Or.inr List.mem_cons_self
      · exact (mem_putNode h).imp id (List.mem_cons_of_mem _)
    · split at h
      · exact (List.mem_cons.mp h).imp id (List.mem_cons_of_mem _)
      · exact List.mem_cons.mp h

theorem putNode_sorted (k : K) (v : V) : ∀ {ns : List (Node K V)},
    ns.Pairwise (fun a b => a.key < b.key) → (putNode k v ns).Pairwise fun a b => a.key < b.key
  | [], _ => by simp [putNode]
  | n :: ns, h => by
    obtain ⟨hn, hs⟩ := List.pairwise_cons.mp h
    unfold putNode
    split
    · rename_i hlt
      refine List.pairwise_cons.mpr ⟨fun m hm => ?_, putNode_sorted k v hs⟩
      rcases mem_putNode hm with rfl | hm
      · exact hlt
      · exact hn m hm
    · split
      · rename_i heq
        exact List.pairwise_cons.mpr ⟨fun m hm => heq ▸ hn m hm, hs⟩
      · rename_i hlt hne
        have hk : k < n.key := lt_of_le_of_ne (not_lt.mp hlt) (Ne.symm hne)
        refine List.pairwise_cons.mpr ⟨fun m hm => ?_, h⟩
        rcases List.mem_cons.mp hm with rfl | hm
        · exact hk
        · exact hk.trans (hn m hm)

theorem removeNode_sorted (k : K) {ns : List (Node K V)}
    (h : ns.Pairwise fun a b => a.key < b.key) :
    (removeNode k ns).Pairwise fun a b => a.key < b.key := by
  refine List.pairwise_map.mpr (h.imp fun {a b} hab => ?_)
  split <;> split <;> exact hab

/-- Insert or update a key-value pair. -/
def put (s : SkipList K V) (k : K) (v : V) : SkipList K V :=
  ⟨putNode k v s.nodes, putNode_sorted k v s.sorted⟩

/-- The value of `k`, if the list holds it and it is not flagged. -/
def get (s : SkipList K V) (k : K) : Option V :=
  match seek k s.nodes with
  | [] => none
  | n :: _ => if n.key = k ∧ n.isTombstone = false then some n.value else none

/-- Mark a key as deleted. -/
def remove (s : SkipList K V) (k : K) : SkipList K V :=
  ⟨removeNode k s.nodes, removeNode_sorted k s.sorted⟩

/-! ### The node of a key -/

/-- The node of `k`. -/
def node (s : SkipList K V) (k : K) : Option (Node K V) := s.nodes.find? fun n => n.key = k

theorem find_cons (n : Node K V) (ns : List (Node K V)) (k : K) :
    (n :: ns).find? (fun n => n.key = k) = if n.key = k then some n else ns.find? fun n => n.key = k := by
  rw [List.find?_cons]
  by_cases h : n.key = k <;> simp [h]

theorem find_none_of_lt {ns : List (Node K V)} {k : K} (h : ∀ n ∈ ns, k < n.key) :
    ns.find? (fun n => n.key = k) = none :=
  List.find?_eq_none.mpr fun n hn => by simpa using (h n hn).ne'

theorem seek_eq : ∀ {ns : List (Node K V)} (k : K), ns.Pairwise (fun a b => a.key < b.key) →
    (match seek k ns with
      | [] => none
      | n :: _ => if n.key = k then some n else none) = ns.find? fun n => n.key = k
  | [], k, _ => rfl
  | n :: ns, k, h => by
    obtain ⟨hn, hs⟩ := List.pairwise_cons.mp h
    rw [find_cons]
    by_cases hlt : n.key < k
    · have : seek k (n :: ns) = seek k ns := by simp [seek, hlt]
      rw [this, seek_eq k hs, if_neg hlt.ne]
    · have : seek k (n :: ns) = n :: ns := by simp [seek, hlt]
      rw [this]
      simp only
      split
      · rfl
      · rename_i hne
        have hk : k < n.key := lt_of_le_of_ne (not_lt.mp hlt) (Ne.symm hne)
        rw [find_none_of_lt fun m hm => hk.trans (hn m hm)]

theorem get_eq (s : SkipList K V) (k : K) :
    s.get k = (s.node k).bind fun n => if n.isTombstone then none else some n.value := by
  unfold get node
  rw [← seek_eq k s.sorted]
  split
  · rfl
  · rename_i n _ _
    by_cases hk : n.key = k <;> cases ht : n.isTombstone <;> simp [hk, ht]

theorem node_mem {s : SkipList K V} {k : K} {n : Node K V} (h : s.node k = some n) : n ∈ s.nodes :=
  List.mem_of_find?_eq_some h

@[simp] theorem node_empty (k : K) : (empty : SkipList K V).node k = none := rfl

theorem find_putNode (k : K) (v : V) (k' : K) : ∀ {ns : List (Node K V)},
    ns.Pairwise (fun a b => a.key < b.key) →
    (putNode k v ns).find? (fun n => n.key = k') =
      if k = k' then some ⟨k, v, false⟩ else ns.find? fun n => n.key = k'
  | [], _ => by simp only [putNode, find_cons]
  | n :: ns, h => by
    obtain ⟨hn, hs⟩ := List.pairwise_cons.mp h
    have ih := find_putNode k v k' hs
    unfold putNode
    split
    · rename_i hlt
      rw [find_cons, find_cons, ih]
      by_cases hk : k = k'
      · subst hk; rw [if_neg hlt.ne, if_pos rfl, if_pos rfl]
      · simp only [if_neg hk]
    · split
      · rename_i heq
        rw [find_cons, find_cons]
        by_cases hk : k = k'
        · simp [hk]
        · have : n.key ≠ k' := heq ▸ hk
          simp [hk, this]
      · rw [find_cons]

@[simp] theorem node_put (s : SkipList K V) (k : K) (v : V) (k' : K) :
    (s.put k v).node k' = if k = k' then some ⟨k, v, false⟩ else s.node k' :=
  find_putNode k v k' s.sorted

theorem find_removeNode (k k' : K) : ∀ ns : List (Node K V),
    (removeNode k ns).find? (fun n => n.key = k') =
      (ns.find? fun n => n.key = k').map fun n => if k = k' then { n with isTombstone := true } else n
  | [] => rfl
  | n :: ns => by
    have ih := find_removeNode k k' ns
    simp only [removeNode, List.map_cons, find_cons] at ih ⊢
    by_cases hn : n.key = k'
    · subst hn
      by_cases hk : n.key = k
      · simp [hk]
      · simp [hk, Ne.symm hk]
    · have hn' : (if n.key = k then { n with isTombstone := true } else n).key ≠ k' := by
        split <;> exact hn
      rw [if_neg hn', if_neg hn, ih]

@[simp] theorem node_remove (s : SkipList K V) (k k' : K) :
    (s.remove k).node k' =
      (s.node k').map fun n => if k = k' then { n with isTombstone := true } else n :=
  find_removeNode k k' s.nodes

end SkipList

/-- The memtable: serialized records by memory id. -/
abbrev MemTable := SkipList Key Bytes

namespace MemTable

/-- Insert a pre-serialized record. -/
def putRaw (m : MemTable) (memoryId : Key) (data : Bytes) : MemTable := m.put memoryId data

/-- The serialized bytes, `none` if absent or flagged. -/
def getRaw (m : MemTable) (memoryId : Key) : Option Bytes := m.get memoryId

/-- Mark a memory id as deleted. -/
def remove (m : MemTable) (memoryId : Key) : MemTable := SkipList.remove m memoryId

/-- No entry at all. -/
def isEmpty (m : MemTable) : Bool := m.nodes.isEmpty

theorem getRaw_eq (m : MemTable) (k : Key) :
    m.getRaw k = (m.node k).bind fun n => if n.isTombstone then none else some n.value :=
  SkipList.get_eq m k

theorem isEmpty_of_node {m : MemTable} {k : Key} {n : Node Key Bytes} (h : m.node k = some n) :
    m.isEmpty = false := by
  have := SkipList.node_mem h
  cases hn : m.nodes with
  | nil => rw [hn] at this; cases this
  | cons a l => simp [isEmpty, hn]

theorem node_of_isEmpty {m : MemTable} (h : m.isEmpty = true) (k : Key) : m.node k = none := by
  cases hn : m.node k with
  | none => rfl
  | some n => rw [isEmpty_of_node hn] at h; cases h

@[simp] theorem isEmpty_putRaw (m : MemTable) (k : Key) (v : Bytes) : (m.putRaw k v).isEmpty = false :=
  isEmpty_of_node (k := k) (n := ⟨k, v, false⟩) (by rw [putRaw, SkipList.node_put, if_pos rfl])

@[simp] theorem isEmpty_remove (m : MemTable) (k : Key) : (remove m k).isEmpty = m.isEmpty := by
  simp [isEmpty, remove, SkipList.remove, SkipList.removeNode]

end MemTable

end Lsm
end Amind
