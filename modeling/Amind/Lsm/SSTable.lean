/-
# Tables on disk

An SSTable is the list of entries its writer was given, in the strictly
ascending key order the writer insists on; a point lookup finds the entry of
the key, whose value is empty when the entry records a deletion. Blocks,
index, compression and Bloom filter lie below this level.

`ofMemTable` is the table a flush writes; `mergeTables` the one a compaction
writes. A compaction drops every key whose newest entry is a deletion.
-/
import Amind.Lib.KWayMerge
import Amind.Lsm.MemTable

namespace Amind
namespace Lsm

/-- The entries of a table. -/
structure SSTable where
  entries : List (Key × Bytes)
  sorted : Keyed.Ascending entries

namespace SSTable

/-- Point lookup. -/
def get (t : SSTable) (k : Key) : Option Bytes := t.entries.lookup k

/-- What a flush writes for a node: a deletion has an empty value. -/
def entryOf (n : Node Key Bytes) : Key × Bytes := (n.key, if n.isTombstone then [] else n.value)

/-- The table a flush of the memtable writes. -/
def ofMemTable (m : MemTable) : SSTable where
  entries := m.nodes.map entryOf
  sorted := List.pairwise_map.mpr m.sorted

/-- The table a compaction of `ts`, newest first, writes. -/
def mergeTables (ts : List SSTable) : SSTable where
  entries := Keyed.merge (fun v => !v.isEmpty) (ts.map entries)
  sorted := Keyed.merge_ascending _ fun c hc => by
    obtain ⟨t, -, rfl⟩ := List.mem_map.mp hc
    exact t.sorted

theorem get_ofMemTable (m : MemTable) (k : Key) :
    (ofMemTable m).get k = (m.node k).map fun n => if n.isTombstone then [] else n.value := by
  show (m.nodes.map entryOf).lookup k = (m.nodes.find? fun n => n.key = k).map _
  generalize m.nodes = ns
  induction ns with
  | nil => rfl
  | cons n ns ih =>
    rw [List.map_cons, SkipList.find_cons]
    by_cases h : n.key = k
    · subst h
      rw [if_pos rfl]
      exact Keyed.lookup_cons_eq (e := entryOf n)
    · rw [if_neg h, Keyed.lookup_cons_ne (e := entryOf n) (Ne.symm h), ih]

/-- The newest table that has the key decides, and a deletion is dropped. -/
theorem get_mergeTables (ts : List SSTable) (k : Key) :
    (mergeTables ts).get k = (ts.findSome? fun t => t.get k).filter fun v => !v.isEmpty := by
  have hs : ∀ c ∈ ts.map entries, Keyed.Ascending c := by
    intro c hc
    obtain ⟨t, -, rfl⟩ := List.mem_map.mp hc
    exact t.sorted
  have h := Keyed.lookup_merge (fun v : Bytes => !v.isEmpty) hs k
  have hf : Keyed.firstHit (ts.map entries) k = ts.findSome? fun t => t.get k := by
    simp only [Keyed.firstHit, List.findSome?_map]
    rfl
  rw [hf] at h
  exact h

end SSTable

end Lsm
end Amind
