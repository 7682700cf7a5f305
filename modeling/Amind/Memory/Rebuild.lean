/-
# Opening a store after its index file failed to load

Opening a store loads the index file, if there is one. When that fails the index
is taken to be new, and every stored record that is alive and has an embedding
is inserted. An id that is in the index already is left out, whatever its vector
is.

`load_failsClean_iff` says when this holds: if and only if the failed load left
the index alone, and then the store has every live embedding again.
-/
import Amind.Memory.Restart
import Amind.Vector.FailedLoad

namespace Amind
namespace Memory
namespace Opened

open Amind.Core Amind.Vector Amind.Vector.HNSWIndex

variable {F : Type} [Floats F]

/-- Open the store with an index that has been loaded, or not. -/
def openOn (x : Opened F) (index : HNSWIndex F) (keys : List UInt64) (levels : UInt64 → ℕ) : Opened F :=
  keys.foldl (reconcile levels)
    { store := { MemoryStore.new x.store.config with lsm := x.store.lsm, hnsw := index.contains }
      index := index
      files := x.files }

/-- Every stored record that is alive is in the index with its embedding, if that
fits. `keys` are the ids stored. -/
def Rebuilt (lsm : UInt64 → Option (MemoryRecord F)) (keys : List UInt64) (index : HNSWIndex F) : Prop :=
  ∀ id ∈ keys, ∀ r, lsm id = some r → r.isAlive = true → r.embedding ≠ [] →
    r.embedding.length = index.config.dimension →
      ∃ n, index.getNode id = some n ∧ n.deleted = false ∧ n.vector = r.embedding

/-- What is in the index is in the store, with the same vector. -/
structure Rebuilding (lsm : UInt64 → Option (MemoryRecord F)) (x : Opened F) : Prop where
  shaped : x.index.Shaped
  nodes : ∀ id n, x.index.getNode id = some n → n.deleted = false ∧ ∃ r, lsm id = some r ∧ n.vector = r.embedding
  stored : x.store.lsm = lsm

variable {x : Opened F} {lsm : UInt64 → Option (MemoryRecord F)} {levels : UInt64 → ℕ}

theorem Rebuilding.reconcile (hx : x.Rebuilding lsm) (levels : UInt64 → ℕ) (id : UInt64) :
    (x.reconcile levels id).Rebuilding lsm := by
  unfold Opened.reconcile
  split
  · exact hx
  · split
    · rename_i r hr
      split
      · exact hx
      · refine ⟨hx.shaped.insert, fun i n hn => ?_, ?_⟩
        · by_cases hdim : r.embedding.length = x.index.config.dimension
          · obtain ⟨hother, hself⟩ : (i ≠ id →
                ((x.index.insert id r.embedding (levels id)).getNode i).map Node.frame = _) ∧ _ :=
              hx.shaped.frame_insert hdim i
            by_cases hid : i = id
            · obtain ⟨m, hm, hvec, hdel⟩ := hself hid
              rw [hm] at hn
              rw [← Option.some.inj hn]
              exact ⟨hdel, r, by rw [hid, ← hx.stored]; exact hr, hvec⟩
            · have hframe := hother hid
              rw [hn] at hframe
              obtain ⟨m, hm, hf⟩ := Option.map_eq_some_iff.mp hframe.symm
              obtain ⟨hdel, r', hr', hvec⟩ := hx.nodes i m hm
              exact ⟨(congrArg (·.2.2.1) hf).symm.trans hdel, r', hr', (congrArg (·.1) hf).symm.trans hvec⟩
          · -- an embedding that does not fit is not inserted
            have hsame : x.index.insert id r.embedding (levels id) = x.index := by
              unfold HNSWIndex.insert
              exact if_pos hdim
            dsimp only at hn
            rw [hsame] at hn
            exact hx.nodes i n hn
        · rw [MemoryStore.lsm_cachePut, MemoryStore.lsm_hnswInsert]
          exact hx.stored
    · exact hx

theorem config_reconcile (id : UInt64) : (x.reconcile levels id).index.config = x.index.config := by
  unfold Opened.reconcile
  split
  · rfl
  · split
    · split
      · rfl
      · exact config_insert
    · rfl

/-- An id that is walked over, and stored with an embedding that fits, is there. -/
theorem contains_reconcile_self (hx : x.index.Shaped) {id : UInt64} {r : MemoryRecord F} (hr : x.store.lsm id = some r)
    (halive : r.isAlive = true) (hne : r.embedding ≠ []) (hdim : r.embedding.length = x.index.config.dimension) :
    (x.reconcile levels id).index.contains id = true := by
  unfold Opened.reconcile
  by_cases hin : x.index.contains id = true
  · rw [if_pos hin]
    exact hin
  · rw [if_neg hin, hr]
    dsimp only
    rw [if_neg (by simp [halive, hne])]
    exact (contains_insert hx.rooted).mpr (.inl ⟨rfl, hdim⟩)

theorem contains_reconcile_of (hx : x.index.Shaped) {i : UInt64} (h : x.index.contains i = true) (id : UInt64) :
    (x.reconcile levels id).index.contains i = true := by
  unfold Opened.reconcile
  split
  · exact h
  · split
    · split
      · exact h
      · exact (contains_insert hx.rooted).mpr (.inr h)
    · exact h

/-- The walk over the ids: those it has passed are there. -/
theorem Rebuilding.walk (levels : UInt64 → ℕ) : ∀ (keys : List UInt64) (x : Opened F), x.Rebuilding lsm →
    (keys.foldl (Opened.reconcile levels) x).Rebuilding lsm ∧
    (keys.foldl (Opened.reconcile levels) x).index.config = x.index.config ∧
    (∀ i, x.index.contains i = true → (keys.foldl (Opened.reconcile levels) x).index.contains i = true) ∧
    ∀ id ∈ keys, ∀ r, lsm id = some r → r.isAlive = true → r.embedding ≠ [] →
      r.embedding.length = x.index.config.dimension →
        (keys.foldl (Opened.reconcile levels) x).index.contains id = true
  | [], x, hx => ⟨hx, rfl, fun _ h => h, fun _ h => absurd h List.not_mem_nil⟩
  | k :: keys, x, hx => by
    obtain ⟨hend, hconfig, hkeep, hall⟩ := Rebuilding.walk levels keys _ (hx.reconcile levels k)
    rw [config_reconcile] at hconfig hall
    refine ⟨hend, hconfig, fun i hi => hkeep i (contains_reconcile_of hx.shaped hi k),
      fun id hid r hr halive hne hdim => ?_⟩
    rcases List.mem_cons.mp hid with rfl | hid
    · exact hkeep _ (contains_reconcile_self hx.shaped (hx.stored ▸ hr) halive hne hdim)
    · exact hall id hid r hr halive hne hdim

/-- A store that is opened on a new index has every live embedding. -/
theorem rebuilt_openOn (x : Opened F) {config : HNSWConfig F} {index : HNSWIndex F}
    (hnew : Same { config := config } index)
    (keys : List UInt64) (levels : UInt64 → ℕ) : Rebuilt x.store.lsm keys (x.openOn index keys levels).index := by
  have hstart : Rebuilding x.store.lsm
      { store := { MemoryStore.new x.store.config with lsm := x.store.lsm, hnsw := index.contains }
        index := index
        files := x.files } := by
    refine ⟨hnew.shaped_new, fun id n hn => ?_, rfl⟩
    have hnone : index.getNode id = none := hnew.nodes id
    rw [hnone] at hn
    cases hn
  obtain ⟨hend, hconfig, -, hall⟩ := Rebuilding.walk levels keys _ hstart
  intro id hid r hr halive hne hdim
  have hin := hall id hid r hr halive hne (hdim.trans (congrArg HNSWConfig.dimension hconfig))
  obtain ⟨n, hn, -⟩ := Option.map_eq_some_iff.mp (contains_iff.mp hin)
  obtain ⟨hdel, r', hr', hvec⟩ := hend.nodes id n hn
  obtain rfl : r = r' := Option.some.inj (hr.symm.trans hr')
  exact ⟨n, hn, hdel, hvec⟩

/-- What is in the index already is left as it is. -/
theorem openOn_of_contains (x : Opened F) {index : HNSWIndex F} {id : UInt64} (h : index.contains id = true) :
    (x.openOn index [id] levels).index = index := by
  unfold openOn
  rw [List.foldl_cons, List.foldl_nil, Opened.reconcile, if_pos h]

/-- **A failed load leaves the index as it was if and only if** its header is
refused or the index is what the front of the file says. Then a store that is
opened with a new index has every live embedding. -/
theorem load_failsClean_iff (bits : FloatBits F) (x : HNSWIndex F) (file : List UInt8) :
    (FailsClean bits x file ↔ CleanWhen bits x file) ∧
    ∀ (o : Opened F) (config : HNSWConfig F) (index : HNSWIndex F), x = { config := config } → FailsClean bits x file →
      x.load bits file = some (false, index) →
        ∀ keys levels, Rebuilt o.store.lsm keys (o.openOn index keys levels).index := by
  refine ⟨failsClean_iff file, fun o config index hx hclean hload keys levels => ?_⟩
  subst hx
  exact o.rebuilt_openOn (hclean index hload) keys levels

/-! ### A file that is cut -/

def recordOne : MemoryRecord UInt8 := { MemoryRecord.zero with memoryId := 1, embedding := [7] }

/-- A store of one record. -/
def oneRecord : Opened UInt8 where
  store := { MemoryStore.new ⟨1, 0, 0, 0, 0, 100, .whole⟩ with
    lsm := fun id => if id = 1 then some recordOne else none }
  index := { config := TieredIndex.byteConfig 1 }
  files := []

/-- The file of two nodes, cut behind the first, whose vector is `[5]`. -/
def cutFile : List UInt8 :=
  let x := TieredIndex.byteIndex 1 [.op (.insert 1 [5] 0), .op (.insert 2 [6] 0)]
  x.headerBytes 0 ++ nodeBytes TieredIndex.byteBits (1, ⟨[5], 0, false, [[]]⟩)

/-- The load fails, the first node stays in the new index, and so the record of its
id is not inserted with its own embedding. -/
theorem not_failsClean_cut :
    ¬ FailsClean TieredIndex.byteBits oneRecord.index cutFile ∧
    ∃ index, oneRecord.index.load TieredIndex.byteBits cutFile = some (false, index) ∧
      ¬ Rebuilt oneRecord.store.lsm [1] (oneRecord.openOn index [1] fun _ => 0).index := by
  have hload : (oneRecord.index.load TieredIndex.byteBits cutFile).map
      (fun r => (r.1, r.2.contains 1, (r.2.getNode 1).map (·.vector))) = some (false, true, some [5]) := by
    decide
  obtain ⟨⟨ok, index⟩, hindex, heq⟩ := Option.map_eq_some_iff.mp hload
  simp only [Prod.mk.injEq] at heq
  obtain ⟨rfl, hin, hvec⟩ := heq
  obtain ⟨n, hn, hvec⟩ := Option.map_eq_some_iff.mp hvec
  refine ⟨fun hclean => ?_, index, hindex, fun hall => ?_⟩
  · have hnone : index.getNode 1 = none := (hclean index hindex).nodes 1
    rw [hnone] at hn
    cases hn
  · rw [oneRecord.openOn_of_contains hin] at hall
    have hdim : ([7] : List UInt8).length = index.config.dimension := by
      rw [config_load hindex]
      rfl
    obtain ⟨n', hn', -, hvec'⟩ := hall 1 List.mem_cons_self recordOne rfl rfl (List.cons_ne_nil _ _) hdim
    obtain rfl : n = n' := Option.some.inj (hn.symm.trans hn')
    exact absurd (hvec.symm.trans hvec') (by decide)

end Opened
end Memory
end Amind
