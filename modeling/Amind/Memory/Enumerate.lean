/-
# Enumerating a store

The scans, the listing and the export go over the cache only, while a record
that is looked up is also found in the storage engine. Opening a store caches
every live record, and every call but two keeps those it names in the cache: a
store over its size gives up the least used fifth, live or not, and archiving a
record that is not cached does not cache it.

`seesAll_iff` says when the enumerations go over every live record: exactly if no
store gives up a live one and no archiving brings one back to life outside the
cache. An export also needs every cached text to be well-formed UTF-8, or it
throws.
-/
import Amind.Core.MemoryRecord
import Amind.Memory.Contents

namespace Amind
namespace Memory

open Amind.Core Amind.Vector
open Run (run Along Paused pausing Still OnOps)

/-- What a listing asks for; a text that is empty asks for nothing. -/
structure ListFilter where
  page : ℤ := 1
  perPage : ℤ := 50
  scopeFilter : Text := []
  memoryTypeFilter : Text := []
  phaseFilter : Text := []
  query : Text := []
  userIdFilter : Text := []
  layerFilter : Text := []
  tierFilter : Text := []
  includeTombstone : Bool := false

structure ListResult (F : Type) where
  records : List (MemoryRecord F)
  total : ℕ
  page : ℤ
  perPage : ℤ

namespace MemoryStore

variable {F : Type} (s : MemoryStore F)

/-- The records a callback is called with. -/
def scanAll : List (MemoryRecord F) := s.cache.entries.map (·.2)

def scanByContentPrefix (pre : Text) : List (MemoryRecord F) :=
  s.scanAll.filter fun r => pre.length ≤ r.content.length ∧ r.content.take pre.length = pre

/-- The record is one of those asked for. -/
def listed (f : ListFilter) (r : MemoryRecord F) : Bool :=
  (r.isAlive || f.includeTombstone) &&
    (f.scopeFilter = [] || (scopeToString r.scope).val = f.scopeFilter) &&
    (f.memoryTypeFilter = [] || (memoryTypeToString r.memoryType).val = f.memoryTypeFilter) &&
    (f.phaseFilter = [] || (phaseToString r.phase).val = f.phaseFilter) &&
    (f.layerFilter = [] || (layerToString r.layer).val = f.layerFilter) &&
    (f.tierFilter = [] || (memoryTierToString r.tier).val = f.tierFilter) &&
    (f.query = [] || decide (f.query <:+: r.content)) &&
    (f.userIdFilter = [] || r.userId = f.userIdFilter)

/-- One page of the records asked for, newest first, as long as no index wraps
around. -/
def listMemories (f : ListFilter) : ListResult F :=
  let matched := (s.scanAll.filter (listed f)).insertionSort fun a b => b.createdAt ≤ a.createdAt
  { records := (matched.drop ((f.page - 1) * f.perPage).toNat).take f.perPage.toNat
    total := matched.length
    page := f.page
    perPage := f.perPage }

end MemoryStore

/-! ### The export -/

section Export

variable {F D : Type} (nf : Numbers F D)

/-- A text as a string of JSON, if it is well formed. -/
def toStr (t : Text) : Option (Json D) := if h : Utf8.valid t = true then some (.str ⟨t, h⟩) else none

/-- A record as it is exported. Writing a text that is not well formed throws. -/
def exportRecord (r : MemoryRecord F) : Option (Json D) := do
  let content ← toStr r.content
  let agentId ← toStr r.agentId
  let userId ← toStr r.userId
  pure <| .obj <| Keyed.ofPairs <|
    [(Utf8.lit "memory_id", .int r.memoryId.toNat),
      (Utf8.lit "content", content),
      (Utf8.lit "agent_id", agentId),
      (Utf8.lit "user_id", userId),
      (Utf8.lit "scope", .str (scopeToString r.scope)),
      (Utf8.lit "memory_type", .str (memoryTypeToString r.memoryType)),
      (Utf8.lit "tier", .str (memoryTierToString r.tier)),
      (Utf8.lit "phase", .str (phaseToString r.phase)),
      (Utf8.lit "confidence", .str (confidenceToString r.confidenceLevel)),
      (Utf8.lit "importance", ofFloat nf r.importance),
      (Utf8.lit "version", .int r.memVersion.toNat),
      (Utf8.lit "parent_id", .int r.parentId.toNat),
      (Utf8.lit "created_at", .int r.createdAt.toNat),
      (Utf8.lit "last_accessed", .int r.lastAccessed.toNat),
      (Utf8.lit "access_count", .int r.accessCount.toNat),
      (Utf8.lit "source_turn", .int r.sourceTurn.toNat),
      (Utf8.lit "flags", .int r.flags.toNat)] ++
    if r.embedding = [] then [] else [(Utf8.lit "embedding", .arr (r.embedding.map (ofFloat nf)))]

def exportLine (r : MemoryRecord F) : Option Text := (exportRecord nf r).map fun j => nf.text.dump j ++ [0x0A]

/-- The exported text, if every record can be written. -/
def exportMemories (s : MemoryStore F) : Option Text := (s.scanAll.mapM (exportLine nf)).map List.flatten

end Export

/-! ### Seeing every live record -/

section Sees

variable {F : Type} (s : MemoryStore F)

/-- A lookup answers the record, and it is alive. -/
def Shows (id : UInt64) (r : MemoryRecord F) : Prop := s.peek id = .ok r ∧ r.isAlive = true

/-- The enumerations go over every live record. -/
structure SeesAll : Prop where
  scanned : ∀ id r, Shows s id r → r ∈ s.scanAll
  prefixed : ∀ id r, Shows s id r → r ∈ s.scanByContentPrefix []
  counted : ∀ ids : List UInt64, ids.Nodup → (∀ id ∈ ids, ∃ r, Shows s id r) → ids.length ≤ (s.listMemories {}).total

/-- The export has a line of every live record. -/
def ExportsAll {D : Type} (nf : Numbers F D) : Prop :=
  ∀ id r, Shows s id r → ∃ before line after, exportLine nf r = some line ∧
    exportMemories nf s = some (before ++ line ++ after)

/-- Every live record is cached. -/
def Cached : Prop := ∀ id r, s.load id = some r → r.isAlive = true → (s.cache.lookup id).isSome = true

variable {s}

theorem shows_iff {id : UInt64} {r : MemoryRecord F} : Shows s id r ↔ s.load id = some r ∧ r.isAlive = true := by
  unfold Shows MemoryStore.peek
  cases s.load id <;> simp

theorem mem_scanAll {r : MemoryRecord F} : r ∈ s.scanAll ↔ ∃ id, s.cache.lookup id = some r := by
  unfold MemoryStore.scanAll
  rw [List.mem_map]
  constructor
  · rintro ⟨e, he, rfl⟩
    exact ⟨e.1, AList.mem_lookup_iff.mpr he⟩
  · rintro ⟨id, hid⟩
    exact ⟨⟨id, r⟩, AList.mem_lookup_iff.mp hid, rfl⟩

theorem scanByContentPrefix_nil : s.scanByContentPrefix [] = s.scanAll := by
  unfold MemoryStore.scanByContentPrefix
  exact List.filter_eq_self.mpr fun r _ => by simp

/-- Without a filter the listing counts the cached live records. -/
theorem total_listMemories : (s.listMemories {}).total = (s.scanAll.filter MemoryRecord.isAlive).length := by
  have hlisted : ∀ r : MemoryRecord F, MemoryStore.listed {} r = r.isAlive := fun r => by simp [MemoryStore.listed]
  show (List.insertionSort _ _).length = _
  rw [List.length_insertionSort]
  congr 2
  exact funext hlisted

/-- Every record is kept under its own id. -/
def Own : MemoryStore F → Prop := Everywhere fun id r => r.memoryId = id

theorem Cached.seesAll (h : Cached s) : SeesAll s := by
  have hmem : ∀ id r, Shows s id r → s.cache.lookup id = some r := by
    intro id r hs
    obtain ⟨hl, ha⟩ := shows_iff.mp hs
    obtain ⟨r', hr'⟩ := Option.isSome_iff_exists.mp (h id r hl ha)
    rw [MemoryStore.load_cached hr'] at hl
    exact hl ▸ hr'
  refine ⟨fun id r hs => mem_scanAll.mpr ⟨id, hmem id r hs⟩, fun id r hs => ?_, fun ids hnodup hids => ?_⟩
  · rw [scanByContentPrefix_nil]
    exact mem_scanAll.mpr ⟨id, hmem id r hs⟩
  · rw [total_listMemories]
    have hsub : ids ⊆ (s.cache.entries.filter fun e => e.2.isAlive).map (·.1) := by
      intro id hid
      obtain ⟨r, hr⟩ := hids id hid
      refine List.mem_map.mpr ⟨⟨id, r⟩, List.mem_filter.mpr ⟨AList.mem_lookup_iff.mp (hmem id r hr), hr.2⟩, rfl⟩
    have hlen := (List.subperm_of_subset hnodup hsub).length_le
    rw [List.length_map] at hlen
    refine hlen.trans_eq ?_
    rw [MemoryStore.scanAll, List.filter_map, List.length_map]
    rfl

theorem SeesAll.cached (h : SeesAll s) (ho : Own s) : Cached s := by
  intro id r hl ha
  obtain ⟨id', hid'⟩ := mem_scanAll.mp (h.scanned id r (shows_iff.mpr ⟨hl, ha⟩))
  have heq : id' = id := (ho.cached id' r hid').symm.trans (ho.load hl)
  rw [← heq, hid']
  rfl

end Sees

/-! ### Giving records up -/

namespace MemoryStore

variable {F : Type} {s : MemoryStore F} {id : UInt64}

/-- The ids that are given up. -/
def givenUp (s : MemoryStore F) : List UInt64 :=
  if s.cache.keys.length ≤ s.config.maxCacheSize then []
  else (s.candidates.take (s.cache.keys.length / 5)).map (·.2)

/-- No cached record that is given up is alive. -/
def GivesUpDead (s : MemoryStore F) : Prop := ∀ id ∈ s.givenUp, (s.cache.lookup id).any MemoryRecord.isAlive = false

instance (s : MemoryStore F) : Decidable s.GivesUpDead :=
  List.decidableBAll (fun id => (s.cache.lookup id).any MemoryRecord.isAlive = false) s.givenUp

theorem givenUp_congr {t : MemoryStore F} (hc : t.config = s.config) (h : t.cache = s.cache) :
    t.givenUp = s.givenUp := by
  unfold givenUp candidates
  rw [hc, h]

theorem lookup_erase_foldl_eq (es : List (UInt32 × UInt64)) (c : AList fun _ : UInt64 => MemoryRecord F) :
    (es.foldl (fun c e => c.erase e.2) c).lookup id = if id ∈ es.map (·.2) then none else c.lookup id := by
  induction es generalizing c with
  | nil => rfl
  | cons e es ih =>
    rw [List.foldl_cons, ih, List.map_cons]
    by_cases hes : id ∈ es.map (·.2)
    · rw [if_pos hes, if_pos (List.mem_cons_of_mem _ hes)]
    · rw [if_neg hes]
      by_cases he : id = e.2
      · rw [if_pos (he ▸ List.mem_cons_self), he, AList.lookup_erase]
      · rw [AList.lookup_erase_ne he, if_neg fun h => (List.mem_cons.mp h).elim he hes]

/-- The cache without what is given up. -/
theorem lookup_evictIfNeeded :
    s.evictIfNeeded.cache.lookup id = if id ∈ s.givenUp then none else s.cache.lookup id := by
  have hc : s.flushDirtyRecords.cache = s.cache := (putRaw_foldl s.dirtyIds s id).2.1
  have hcandidates : s.flushDirtyRecords.candidates = s.candidates := by
    unfold candidates
    rw [hc]
  unfold evictIfNeeded givenUp
  split
  · rw [if_neg List.not_mem_nil]
  · dsimp only
    rw [hcandidates, hc]
    exact lookup_erase_foldl_eq _ _

theorem cache_storeRecord (s : MemoryStore F) (r : MemoryRecord F) (id : UInt64) : (s.storeRecord r).cache.lookup id =
    if id ∈ (s.cachePut r.memoryId r).givenUp then none else (s.cachePut r.memoryId r).cache.lookup id := by
  have heq : s.storeRecord r =
      (((if r.embedding ≠ [] then s.hnswInsert r.memoryId r.embedding else s).putRaw r.memoryId r).cachePut
        r.memoryId r).evictIfNeeded := rfl
  have hcache : (if r.embedding ≠ [] then s.hnswInsert r.memoryId r.embedding else s).cache = s.cache := by
    split
    · exact cache_hnswInsert
    · rfl
  have hconfig : (((if r.embedding ≠ [] then s.hnswInsert r.memoryId r.embedding else s).putRaw r.memoryId r).cachePut
      r.memoryId r).config = (s.cachePut r.memoryId r).config := by
    rw [config_cachePut, config_cachePut, config_putRaw]
    split
    · exact config_hnswInsert
    · rfl
  have hput : (((if r.embedding ≠ [] then s.hnswInsert r.memoryId r.embedding else s).putRaw r.memoryId r).cachePut
      r.memoryId r).cache = (s.cachePut r.memoryId r).cache := by
    rw [cache_cachePut, cache_cachePut, cache_putRaw, hcache]
  rw [heq, lookup_evictIfNeeded, givenUp_congr hconfig hput, hput]

/-- What storing a record leaves in the cache. -/
theorem cache_fastStore {r : MemoryRecord F} {clock : List ℤ} {now : UInt32} {i : UInt64}
    (h : (s.fastStore r clock now).2.id = some i) : (s.fastStore r clock now).1.cache.lookup id =
    if id ∈ (s.cachePut i (prepared { r with memoryId := i } now)).givenUp then none
    else (s.cachePut i (prepared { r with memoryId := i } now)).cache.lookup id := by
  revert h
  unfold fastStore
  by_cases h₀ : r.memoryId = 0
  · rw [if_pos h₀]
    cases s.idGen.nextId clock with
    | returned j g =>
      intro h
      cases h
      have hstore := cache_storeRecord { s with idGen := g } (prepared { r with memoryId := i } now) id
      rw [prepared_memoryId] at hstore
      rw [hstore]
      rfl
    | thrown =>
      intro h
      have h' : none = some i := h
      cases h'
    | waiting =>
      intro h
      have h' : none = some i := h
      cases h'
  · rw [if_neg h₀]
    intro h
    cases h
    have hstore := cache_storeRecord s (prepared r now) id
    rw [prepared_memoryId] at hstore
    exact hstore

/-- A call that stores no record leaves the store as it is. -/
theorem fastStore_none {r : MemoryRecord F} {clock : List ℤ} {now : UInt32}
    (h : (s.fastStore r clock now).2.id = none) : (s.fastStore r clock now).1 = s := by
  revert h
  unfold fastStore
  by_cases h₀ : r.memoryId = 0
  · rw [if_pos h₀]
    cases s.idGen.nextId clock with
    | returned j g =>
      intro h
      have h' : some j = none := h
      cases h'
    | thrown => exact fun _ => rfl
    | waiting => exact fun _ => rfl
  · rw [if_neg h₀]
    intro h
    have h' : some r.memoryId = none := h
    cases h'

end MemoryStore

/-! ### What leaves the cache -/

section Steps

variable {F : Type} [Floats F] {s : MemoryStore F} {op : Op F} {id : UInt64}

namespace MemoryStore

/-- The store gives up no live record, and the record that is archived is not
alive then unless it is cached. -/
def KeepsLive (s : MemoryStore F) : Op F → Prop
  | .fastStore r clock now => ∀ i ∈ (s.fastStore r clock now).2.id,
    (s.cachePut i (prepared { r with memoryId := i } now)).GivesUpDead
  | .archive i => s.cache.lookup i = none → (s.lsm i).any (fun r => (archived r).isAlive) = false
  | _ => True

instance (s : MemoryStore F) : ∀ op, Decidable (s.KeepsLive op)
  | .fastStore r clock now =>
    match h : (s.fastStore r clock now).2.id with
    | some i =>
      decidable_of_iff (s.cachePut i (prepared { r with memoryId := i } now)).GivesUpDead
        ⟨fun hd j hj => Option.some.inj (h.symm.trans hj) ▸ hd, fun hd => hd i h⟩
    | none => isTrue fun _ hj => absurd (h.symm.trans hj) (by simp)
  | .update _ _ _ _ _ | .remove _ => inferInstanceAs (Decidable True)
  | .archive i =>
    inferInstanceAs (Decidable (s.cache.lookup i = none → (s.lsm i).any (fun r => (archived r).isAlive) = false))
  | .setEmbedding _ _ | .boostImportance _ _ | .updateInPlace _ _ | .flush | .getCached _ _ =>
      inferInstanceAs (Decidable True)

omit [Floats F] in
theorem uncached_insert {cache : AList fun _ : UInt64 => MemoryRecord F} {i : UInt64} {r : MemoryRecord F}
    (h : (cache.insert i r).lookup id = none) : id ≠ i ∧ cache.lookup id = none := by
  have hne : id ≠ i := by
    rintro rfl
    rw [AList.lookup_insert] at h
    cases h
  rw [AList.lookup_insert_ne hne] at h
  exact ⟨hne, h⟩

omit [Floats F] in
/-- A change caches the record it finds. -/
theorem uncached_modify {f : MemoryRecord F → MemoryRecord F} {i : UInt64}
    (h : (s.modify i f).cache.lookup id = none) : s.cache.lookup id = none ∧ (i = id → s.load id = none) := by
  unfold modify at h
  cases hl : s.load i with
  | none =>
    rw [hl] at h
    exact ⟨h, fun he => he ▸ hl⟩
  | some r =>
    rw [hl] at h
    obtain ⟨hne, hc⟩ : id ≠ i ∧ s.cache.lookup id = none := uncached_insert h
    exact ⟨hc, fun he => absurd he.symm hne⟩

omit [Floats F] in
theorem not_wrote_of_load {f : MemoryRecord F → MemoryRecord F} {i : UInt64} (h : i = id → s.load id = none)
    (r : MemoryRecord F) : (id, r) ∉ (s.load i).toList.map fun r => (i, f r) := by
  intro hm
  obtain ⟨r₀, h₀, he⟩ := List.mem_map.mp hm
  obtain ⟨hi, -⟩ := Prod.mk.inj he
  have hl := Option.mem_toList.mp h₀
  rw [hi, h hi] at hl
  cases hl

omit [Floats F] in
/-- So does one that is made under a condition. -/
theorem uncached_modifyIf {p : Prop} [Decidable p] {f : MemoryRecord F → MemoryRecord F} {i : UInt64}
    (h : (if p then s.modify i f else s).cache.lookup id = none) : s.cache.lookup id = none ∧
      ∀ r, (id, r) ∉ if p then (s.load i).toList.map fun r => (i, f r) else [] := by
  by_cases hp : p
  · rw [if_pos hp] at h ⊢
    obtain ⟨hc, hl⟩ := uncached_modify h
    exact ⟨hc, not_wrote_of_load hl⟩
  · rw [if_neg hp] at h ⊢
    exact ⟨h, fun r => List.not_mem_nil⟩

theorem uncached_update {i : UInt64} {c : Text} {v : List F} {clock : List ℤ} {now : UInt32}
    (h : (s.update i c v clock now).1.cache.lookup id = none) :
    s.cache.lookup id = none ∧ ∀ r, (id, r) ∉ s.wrote (.update i c v clock now) := by
  have hwrote : s.wrote (.update i c v clock now) =
      (s.load i).toList.flatMap fun old => (s.update i c v clock now).2.id.toList.flatMap fun newId =>
        [(i, old.markVersioned), (newId, newVersion old newId c v now)] := rfl
  rw [hwrote]
  revert h
  unfold update
  cases s.load i with
  | none => exact fun h => ⟨h, fun _ hm => absurd hm List.not_mem_nil⟩
  | some old =>
    cases s.idGen.nextId clock with
    | returned newId g =>
      intro h
      dsimp only at h
      rw [cache_cachePut, cache_putRaw] at h
      obtain ⟨hnew, h⟩ := uncached_insert h
      have hc : ((({ s with idGen := g }.putRaw i old.markVersioned).cachePut i old.markVersioned).cache).lookup id =
          none := by
        split at h
        · rw [cache_hnswInsert] at h
          exact h
        · exact h
      rw [cache_cachePut, cache_putRaw] at hc
      obtain ⟨hold, hc⟩ := uncached_insert hc
      refine ⟨hc, fun r hm => ?_⟩
      rcases List.mem_cons.mp hm with he | hm
      · exact hold (Prod.mk.inj he).1
      · exact hnew (Prod.mk.inj (List.mem_singleton.mp hm)).1
    | thrown => exact fun h => ⟨h, fun _ hm => absurd hm List.not_mem_nil⟩
    | waiting => exact fun h => ⟨h, fun _ hm => absurd hm List.not_mem_nil⟩

theorem uncached_fastStore {r : MemoryRecord F} {clock : List ℤ} {now : UInt32}
    (h : (s.fastStore r clock now).1.cache.lookup id = none) :
    (s.cache.lookup id = none ∧ ∀ r', (id, r') ∉ s.wrote (.fastStore r clock now)) ∨
      ∃ i, (s.fastStore r clock now).2.id = some i ∧
        id ∈ (s.cachePut i (prepared { r with memoryId := i } now)).givenUp := by
  cases hi : (s.fastStore r clock now).2.id with
  | none =>
    rw [fastStore_none hi] at h
    refine .inl ⟨h, fun r' hm => ?_⟩
    rw [wrote, hi] at hm
    cases hm
  | some i =>
    rw [cache_fastStore hi] at h
    by_cases hg : id ∈ (s.cachePut i (prepared { r with memoryId := i } now)).givenUp
    · exact .inr ⟨i, rfl, hg⟩
    · rw [if_neg hg, cache_cachePut] at h
      obtain ⟨hne, hc⟩ := uncached_insert h
      refine .inl ⟨hc, fun r' hm => hne ?_⟩
      rw [wrote, hi] at hm
      exact (Prod.mk.inj (List.mem_singleton.mp hm)).1

omit [Floats F] in
theorem uncached_remove {i : UInt64} (hne : i ≠ id) (h : (s.remove i).1.cache.lookup id = none) :
    s.cache.lookup id = none := by
  cases hc : s.cache.lookup i with
  | some r =>
    rw [remove_cached hc] at h
    exact (AList.lookup_erase_ne hne.symm).symm.trans h
  | none =>
    cases hl : s.lsm i with
    | some r =>
      rw [remove_stored hc hl] at h
      exact h
    | none =>
      rw [remove_missing hc hl] at h
      exact h

omit [Floats F] in
/-- Archiving caches a record that was cached. -/
theorem uncached_archive {i : UInt64} (h : (s.archive i).1.cache.lookup id = none) : s.cache.lookup id = none := by
  unfold archive at h
  simp only [cache_softDelete, lsm_softDelete] at h
  cases hc : s.cache.lookup i with
  | some r =>
    rw [hc] at h
    exact (uncached_insert (show (s.cache.insert i (archived r)).lookup id = none from h)).2
  | none =>
    rw [hc] at h
    cases hl : s.lsm i with
    | some r =>
      rw [hl] at h
      exact h
    | none =>
      rw [hl] at h
      exact h

omit [Floats F] in
theorem uncached_setEmbedding {i : UInt64} {v : List F} (h : (s.setEmbedding i v).cache.lookup id = none) :
    s.cache.lookup id = none ∧ (i = id → s.load id = none) := by
  obtain ⟨hc, hl⟩ := uncached_modify h
  have hcache : (if (s.load i).isSome then s.hnswInsert i v else s).cache = s.cache := by
    split
    · exact cache_hnswInsert
    · rfl
  have hlsm : (if (s.load i).isSome then s.hnswInsert i v else s).lsm = s.lsm := by
    split
    · exact lsm_hnswInsert
    · rfl
  rw [load, hcache, hlsm] at hl
  rw [hcache] at hc
  exact ⟨hc, hl⟩

theorem uncached_getCached {i : UInt64} {now : UInt32}
    (h : (((s.getCached i now).map (·.1)).getD s).cache.lookup id = none) : s.cache.lookup id = none := by
  unfold getCached at h
  cases hc : s.cache.lookup i with
  | none =>
    rw [hc] at h
    exact h
  | some r =>
    rw [hc] at h
    exact (uncached_insert (show (s.cache.insert i (tryPromote s.config (touch r now))).lookup id = none from h)).2

/-- What is not cached after a call was not before and was not written, unless
it was removed, archived where it was, or given up. -/
theorem uncached_exec (h : (s.exec op).cache.lookup id = none) :
    (s.cache.lookup id = none ∧ ∀ r, (id, r) ∉ s.wrote op) ∨ op = .remove id ∨
      (op = .archive id ∧ s.cache.lookup id = none) ∨
      ∃ r clock now i, op = .fastStore r clock now ∧ (s.fastStore r clock now).2.id = some i ∧
        id ∈ (s.cachePut i (prepared { r with memoryId := i } now)).givenUp := by
  cases op with
  | fastStore r clock now =>
    rcases uncached_fastStore h with hkept | ⟨i, hi, hg⟩
    · exact .inl hkept
    · exact .inr (.inr (.inr ⟨r, clock, now, i, rfl, hi, hg⟩))
  | update i c v clock now => exact .inl (uncached_update h)
  | remove i =>
    by_cases he : i = id
    · exact .inr (.inl (by rw [he]))
    · refine .inl ⟨uncached_remove he h, fun r hm => he ?_⟩
      obtain ⟨r₀, -, hr⟩ := List.mem_map.mp hm
      exact (Prod.mk.inj hr).1
  | archive i =>
    have hc : s.cache.lookup id = none := uncached_archive h
    by_cases he : i = id
    · exact .inr (.inr (.inl ⟨by rw [he], hc⟩))
    · refine .inl ⟨hc, fun r hm => he ?_⟩
      obtain ⟨r₀, -, hr⟩ := List.mem_map.mp hm
      exact (Prod.mk.inj hr).1
  | setEmbedding i v =>
    obtain ⟨hc, hl⟩ := uncached_setEmbedding h
    exact .inl ⟨hc, fun r => not_wrote_of_load hl r⟩
  | boostImportance i delta => exact .inl (uncached_modifyIf h)
  | updateInPlace i c => exact .inl (uncached_modifyIf h)
  | flush =>
    have hc : s.flushDirtyRecords.cache = s.cache := (putRaw_foldl s.dirtyIds s id).2.1
    have h : s.flushDirtyRecords.cache.lookup id = none := h
    rw [hc] at h
    exact .inl ⟨h, fun r => List.not_mem_nil⟩
  | getCached i now => exact .inl ⟨uncached_getCached h, fun r => List.not_mem_nil⟩

end MemoryStore

omit [Floats F] in
theorem alive_of_shown {v : MemoryRecord F} (h : s.shown id = some v) (hv : v.isAlive = true) :
    ∃ r, s.load id = some r ∧ r.isAlive = true := by
  obtain ⟨r, hr, rfl⟩ := Option.map_eq_some_iff.mp h
  exact ⟨r, hr, hv⟩

omit [Floats F] in
theorem shown_of_load {r : MemoryRecord F} (h : s.load id = some r) : s.shown id = some (version s.config.wire r) := by
  rw [MemoryStore.shown, h]
  rfl

/-- A record that is alive after a call was written alive, or left alive. -/
theorem alive_exec (hs : s.Coherent) {r : MemoryRecord F} (hl : (s.exec op).load id = some r)
    (ha : r.isAlive = true) : (∃ q, (id, q) ∈ s.wrote op ∧ q.isAlive = true) ∨
      (∀ q, (id, q) ∉ s.wrote op) ∧ ∃ q, s.load id = some q ∧ q.isAlive = true := by
  have hv := shown_of_load hl
  rw [hs.shown_exec op] at hv
  rcases after_cases s.config.wire (s.wrote op) s.shown id with ⟨q, hq, he⟩ | ⟨hw, he⟩
  · have halive : (version s.config.wire q).isAlive = (version (s.exec op).config.wire r).isAlive :=
      congrArg MemoryRecord.isAlive (Option.some.inj (he.symm.trans hv))
    exact .inl ⟨q, hq, halive.trans ha⟩
  · exact .inr ⟨hw, alive_of_shown (he.symm.trans hv) ha⟩

omit [Floats F] in
theorem Cached.lookup (h : Cached s) {r : MemoryRecord F} (hl : s.load id = some r) (ha : r.isAlive = true) :
    s.cache.lookup id = some r := by
  obtain ⟨r', hr'⟩ := Option.isSome_iff_exists.mp (h id r hl ha)
  rw [MemoryStore.load_cached hr'] at hl
  exact hl ▸ hr'

/-- **A call that keeps live records keeps them cached.** -/
theorem Cached.exec (hs : s.Coherent) (h : Cached s) (hk : s.KeepsLive op) : Cached (s.exec op) := by
  intro id r hl ha
  by_contra hnone
  have hc : (s.exec op).cache.lookup id = none := Option.not_isSome_iff_eq_none.mp hnone
  have halive := alive_exec hs hl ha
  rcases MemoryStore.uncached_exec hc with ⟨hmiss, hw⟩ | rfl | ⟨rfl, hmiss⟩ | ⟨r', clock, now, i, rfl, hi, hg⟩
  · rcases halive with ⟨q, hq, -⟩ | ⟨-, q, hq, hqa⟩
    · exact hw q hq
    · rw [h.lookup hq hqa] at hmiss
      cases hmiss
  · rcases halive with ⟨q, hq, hqa⟩ | ⟨hw, q, hq, -⟩
    · rcases MemoryStore.wrote_cases hq with hcreated | ⟨-, -, -, hdead⟩
      · cases hcreated
      · rw [(hdead rfl).not_alive] at hqa
        cases hqa
    · rw [MemoryStore.load_of_removes rfl hw] at hq
      cases hq
  · rcases halive with ⟨q, hq, hqa⟩ | ⟨-, q, hq, hqa⟩
    · obtain ⟨r₀, hr₀, he⟩ := List.mem_map.mp hq
      rw [Option.mem_toList, MemoryStore.load_stored hmiss] at hr₀
      obtain ⟨-, rfl⟩ := Prod.mk.inj he
      exact Bool.eq_false_iff.mp (hk hmiss) ((Option.any_eq_true _ _).mpr ⟨r₀, hr₀, hqa⟩)
    · rw [h.lookup hq hqa] at hmiss
      cases hmiss
  · have hdead := hk i hi id hg
    rw [MemoryStore.cache_cachePut] at hdead
    have hwrote : s.wrote (.fastStore r' clock now) = [(i, MemoryStore.prepared { r' with memoryId := i } now)] := by
      rw [MemoryStore.wrote, hi]
      rfl
    rw [hwrote] at halive
    rcases halive with ⟨q, hq, hqa⟩ | ⟨hw, q, hq, hqa⟩
    · obtain ⟨rfl, rfl⟩ := Prod.mk.inj (List.mem_singleton.mp hq)
      rw [AList.lookup_insert] at hdead
      exact Bool.eq_false_iff.mp hdead hqa
    · have hne : id ≠ i := fun he => hw _ (by rw [he]; exact List.mem_singleton_self _)
      rw [AList.lookup_insert_ne hne, h.lookup hq hqa] at hdead
      exact Bool.eq_false_iff.mp hdead hqa

/-- A call after which every live record is cached has kept them. -/
theorem Cached.keepsLive (hs : s.Coherent) (h : Cached (s.exec op)) : s.KeepsLive op := by
  -- what is shown alive after the call is cached
  have hcached : ∀ {id : UInt64} {v : MemoryRecord F}, (s.exec op).shown id = some v → v.isAlive = true →
      (s.exec op).cache.lookup id = none → False := by
    intro id v hv ha hc
    obtain ⟨q, hq, hqa⟩ := alive_of_shown hv ha
    rw [h.lookup hq hqa] at hc
    cases hc
  cases op with
  | fastStore r clock now =>
    intro i hi id hg
    rw [Bool.eq_false_iff]
    intro halive
    obtain ⟨q, hq, hqa⟩ := (Option.any_eq_true _ _).mp halive
    have hwrote : s.wrote (.fastStore r clock now) = [(i, MemoryStore.prepared { r with memoryId := i } now)] := by
      rw [MemoryStore.wrote, hi]
      rfl
    have hnone : (s.exec (.fastStore r clock now)).cache.lookup id = none :=
      (MemoryStore.cache_fastStore hi).trans (if_pos hg)
    refine hcached (v := version s.config.wire q) ?_ hqa hnone
    rw [hs.shown_exec, hwrote, after_one]
    rw [MemoryStore.cache_cachePut] at hq
    by_cases he : id = i
    · subst he
      rw [AList.lookup_insert] at hq
      rw [if_pos rfl, Option.some.inj hq]
    · rw [AList.lookup_insert_ne he] at hq
      rw [if_neg he]
      exact shown_of_load (MemoryStore.load_cached hq)
  | archive i =>
    intro hmiss
    rw [Bool.eq_false_iff]
    intro halive
    obtain ⟨r₀, hr₀, hra⟩ := (Option.any_eq_true _ _).mp halive
    have hwrote : s.wrote (.archive i) = [(i, MemoryStore.archived r₀)] := by
      rw [MemoryStore.wrote, MemoryStore.load_stored hmiss, hr₀]
      rfl
    have hnone : (s.exec (.archive i)).cache.lookup i = none := by
      show (s.archive i).1.cache.lookup i = none
      simp only [MemoryStore.archive, MemoryStore.cache_softDelete, MemoryStore.lsm_softDelete, hmiss, hr₀]
      exact hmiss
    refine hcached (v := version s.config.wire (MemoryStore.archived r₀)) ?_ hra hnone
    rw [hs.shown_exec, hwrote, after_one, if_pos rfl]
  | _ => trivial

/-! ### Runs -/

/-- A call writes every record under its own id. -/
theorem own_of_wrote (ho : Own s) {r : MemoryRecord F} (h : (id, r) ∈ s.wrote op) : r.memoryId = id :=
  MemoryStore.memoryId_of_wrote (fun _ h₀ => ho.load h₀) h

omit [Floats F] in
theorem respects_own (w : Wire F) : Respects w fun id r => r.memoryId = id where
  version := fun _ _ _ hv h => (congrArg (fun r => r.memoryId) hv).symm.trans h
  wire := fun _ _ h => h

omit [Floats F] in
theorem isSome_insert {c : AList fun _ : UInt64 => MemoryRecord F} (i : UInt64) (r : MemoryRecord F)
    (h : (c.lookup id).isSome = true) : ((c.insert i r).lookup id).isSome = true := by
  by_cases he : id = i
  · rw [he, AList.lookup_insert]
    rfl
  · rwa [AList.lookup_insert_ne he]

omit [Floats F] in
theorem cached_warm {i : UInt64} (h : (s.cache.lookup id).isSome = true) :
    ((s.warm i).cache.lookup id).isSome = true := by
  unfold MemoryStore.warm
  split
  · exact h
  · split
    · split
      · exact isSome_insert i _ h
      · exact h
    · exact h

omit [Floats F] in
theorem cached_warm_self {r : MemoryRecord F} (hl : s.lsm id = some r) (ha : r.isAlive = true) :
    ((s.warm id).cache.lookup id).isSome = true := by
  unfold MemoryStore.warm
  split
  · rename_i h
    exact h
  · rw [hl]
    dsimp only
    rw [if_pos ha, MemoryStore.cache_cachePut, AList.lookup_insert]
    rfl

omit [Floats F] in
/-- Every live record that is walked over is cached. -/
theorem cached_warms {r : MemoryRecord F} (ha : r.isAlive = true) (keys : List UInt64) (s : MemoryStore F)
    (hl : s.lsm id = some r) (h : id ∈ keys ∨ (s.cache.lookup id).isSome = true) :
    ((keys.foldl MemoryStore.warm s).cache.lookup id).isSome = true := by
  induction keys generalizing s with
  | nil => exact h.resolve_left List.not_mem_nil
  | cons i keys ih =>
    have hlsm : (s.warm i).lsm = s.lsm := by
      obtain ⟨cache, hw⟩ := s.warm_eq i
      rw [hw]
    refine ih (s.warm i) (by rw [hlsm]; exact hl) ?_
    rcases h with h | h
    · rcases List.mem_cons.mp h with rfl | h
      · exact .inr (cached_warm_self hl ha)
      · exact .inl h
    · exact .inr (cached_warm h)

namespace Opened

variable {x : Opened F}

/-- A call keeps live records cached; a `get` and a restart do. -/
def KeepsLive (x : Opened F) : Act F → Prop
  | .turn (.call op _) => x.store.KeepsLive op
  | _ => True

instance (x : Opened F) : ∀ a, Decidable (x.KeepsLive a)
  | .turn (.call op _) => inferInstanceAs (Decidable (x.store.KeepsLive op))
  | .turn (.reopen _ _ _) => inferInstanceAs (Decidable True)
  | .get _ _ => inferInstanceAs (Decidable True)

/-- Opening the store walks over every stored record, as the storage engine
does that was only put into (`Lsm.Live`). -/
def Walks (x : Opened F) : Act F → Prop
  | .turn (.reopen _ keys _) => ∀ id, (x.close.store.lsm id).isSome = true → id ∈ keys
  | _ => True

theorem own_act (hx : x.Sound) (h : Own x.store) (a : Act F) : Own (x.act a).store := by
  refine everywhere_act hx h (respects_own _) (a := a) ?_
  cases a with
  | get i now => trivial
  | turn t =>
    cases t with
    | call op level => exact fun id r hm => own_of_wrote h hm
    | reopen file keys levels => trivial

/-- Opening a store caches every live record. -/
theorem cached_reopen (hx : x.Sound) {file : Option ℕ} {keys : List UInt64} {levels : UInt64 → ℕ}
    (hw : x.Walks (.turn (.reopen file keys levels))) :
    Cached (x.act (.turn (.reopen file keys levels))).store := by
  intro id r hl ha
  have hload := hx.toMirrors.close.init file keys levels
  have hrec := hx.toMirrors.close.reconciled file keys levels
  have hstored : x.close.store.lsm id = some r := by
    have hl : (x.close.init file keys levels).store.load id = some r := hl
    rw [← hload.lsm]
    cases hc : (x.close.init file keys levels).store.cache.lookup id with
    | some q =>
      rw [MemoryStore.load_cached hc] at hl
      exact Option.some.inj hl ▸ hload.fromDisk id q hc
    | none => rwa [MemoryStore.load_stored hc] at hl
  refine cached_warms ha keys _ (hrec.lsm ▸ hstored) (.inl (hw id ?_))
  rw [hstored]
  rfl

theorem cached_get {s : MemoryStore F} (h : Cached s) (hs : s.Coherent) (i : UInt64) (now : UInt32) :
    Cached (s.get i now).1 := by
  rcases get_cases s i now with he | ⟨q, hmiss, hq, he⟩
  · rw [he]
    exact h.exec hs trivial
  · rw [he]
    intro id r hl ha
    by_cases hi : id = i
    · rw [hi, Race.getInsert_missing hmiss]
      rfl
    · rw [MemoryStore.load, Race.getInsert_other hi] at hl
      rw [Race.getInsert_other hi]
      exact h id r hl ha

theorem cached_act (hx : x.Sound) (h : Cached x.store) {a : Act F} (hw : x.Walks a) (hk : x.KeepsLive a) :
    Cached (x.act a).store := by
  cases a with
  | get i now => exact cached_get h hx.coherent i now
  | turn t =>
    cases t with
    | call op level => exact h.exec hx.coherent hk
    | reopen file keys levels => exact cached_reopen hx hw

omit [Floats F] in
theorem cached_start (c : Config F) (h : HNSWConfig F) : Cached (start c h).store := by
  intro id r hl
  have hnone : none = some r := hl
  cases hnone

end Opened

/-- The texts of a record are well formed, as they are and as they come back. -/
structure WellFormed (w : Wire F) (_ : UInt64) (r : MemoryRecord F) : Prop where
  content : Utf8.valid r.content = true ∧ Utf8.valid (r.wire w).content = true
  agentId : Utf8.valid r.agentId = true ∧ Utf8.valid (r.wire w).agentId = true
  userId : Utf8.valid r.userId = true ∧ Utf8.valid (r.wire w).userId = true

omit [Floats F] in
theorem respects_wellFormed (w : Wire F) : Respects w (WellFormed w) where
  version := fun _ r r' hv h => by
    have hbody : r.toBody = r'.toBody := congrArg (fun r => r.toBody) hv
    have hc : r.content = r'.content := congrArg Body.content hbody
    have ha : r.agentId = r'.agentId := congrArg Body.agentId hbody
    have hu : r.userId = r'.userId := congrArg Body.userId hbody
    have hw : (r.wire w).toBody = (r'.wire w).toBody := congrArg w.clip hbody
    have hwc : (r.wire w).content = (r'.wire w).content := congrArg Body.content hw
    have hwa : (r.wire w).agentId = (r'.wire w).agentId := congrArg Body.agentId hw
    have hwu : (r.wire w).userId = (r'.wire w).userId := congrArg Body.userId hw
    exact ⟨hc ▸ hwc ▸ h.content, ha ▸ hwa ▸ h.agentId, hu ▸ hwu ▸ h.userId⟩
  wire := fun _ r h => by
    refine ⟨⟨h.content.2, ?_⟩, ⟨h.agentId.2, ?_⟩, h.userId.2, ?_⟩ <;> rw [MemoryRecord.wire_wire]
    · exact h.content.2
    · exact h.agentId.2
    · exact h.userId.2

omit [Floats F] in
theorem exportLine_wellFormed {D : Type} (nf : Numbers F D) {w : Wire F} {r : MemoryRecord F} (h : WellFormed w id r) :
    ∃ line, exportLine nf r = some line := by
  refine Option.isSome_iff_exists.mp ?_
  unfold exportLine exportRecord toStr
  rw [dif_pos h.content.1, dif_pos h.agentId.1, dif_pos h.userId.1]
  rfl

omit [Floats F] in
/-- A well-formed record that is cached has its line in the export. -/
theorem exports_cached {D : Type} (nf : Numbers F D) {w : Wire F} (he : Everywhere (WellFormed w) s) (hc : Cached s) :
    ExportsAll s nf := by
  intro id r hs
  obtain ⟨hl, ha⟩ := shows_iff.mp hs
  obtain ⟨front, back, hsplit⟩ := List.append_of_mem (mem_scanAll.mpr ⟨id, hc.lookup hl ha⟩)
  have hline : ∀ q ∈ s.scanAll, ∃ line, exportLine nf q = some line := fun q hq => by
    obtain ⟨i, hi⟩ := mem_scanAll.mp hq
    exact exportLine_wellFormed nf (he.cached i q hi)
  have hall : ∀ rs : List (MemoryRecord F), (∀ q ∈ rs, ∃ line, exportLine nf q = some line) →
      ∃ lines, rs.mapM (exportLine nf) = some lines := by
    intro rs h
    induction rs with
    | nil => exact ⟨[], rfl⟩
    | cons q rs ih =>
      obtain ⟨line, hq⟩ := h q List.mem_cons_self
      obtain ⟨lines, hls⟩ := ih fun q hq => h q (List.mem_cons_of_mem _ hq)
      exact ⟨line :: lines, by rw [List.mapM_cons, hq, hls]; rfl⟩
  rw [hsplit] at hline
  obtain ⟨before, hb⟩ := hall front fun q hq => hline q (List.mem_append_left _ hq)
  obtain ⟨line, hr⟩ := hline r (by simp)
  obtain ⟨after, hf⟩ := hall back fun q hq => hline q (by simp [hq])
  refine ⟨before.flatten, line, after.flatten, hr, ?_⟩
  rw [exportMemories, hsplit, List.mapM_append, List.mapM_cons, hb, hr, hf]
  simp

/-- The enumerations go over every live record after each act of a run exactly if
its acts keep live records cached; then the export has a line of each of them, if
all that was stored is well formed. -/
theorem seesAll_acts_iff (c : Config F) (h : HNSWConfig F) (acts : List (Act F))
    (hw : Along Opened.act Opened.Walks (.start c h) acts) :
    ((∀ before, before <+: acts → SeesAll (run Opened.act (.start c h) before).store) ↔
      Along Opened.act Opened.KeepsLive (.start c h) acts) ∧
    ∀ {D : Type} (nf : Numbers F D), Along Opened.act Opened.KeepsLive (.start c h) acts →
      Along Opened.act (Opened.WritesAll (WellFormed c.wire)) (.start c h) acts →
      ∀ before, before <+: acts → ExportsAll (run Opened.act (.start c h) before).store nf := by
  have hstart := Opened.sound_start c h
  have hown : Own (Opened.start c h).store := everywhere_new c
  constructor
  · refine Run.along_iff_of_inv (I := fun _ y => y.Sound ∧ Own y.store ∧ Cached y.store)
      (P := fun _ y => SeesAll y.store) (D := Opened.Walks) ?_ (fun _ _ hy => hy.2.2.seesAll) ?_
      ⟨hstart, hown, Opened.cached_start c h⟩ hw
    · intro _ y a hy hd hk
      exact ⟨hy.1.act a, Opened.own_act hy.1 hy.2.1 a, Opened.cached_act hy.1 hy.2.2 hd hk⟩
    · intro _ y a hy _ hsees
      cases a with
      | get i now => trivial
      | turn t =>
        cases t with
        | call op level => exact (hsees.cached (Opened.own_act hy.1 hy.2.1 _)).keepsLive hy.1.coherent
        | reopen file keys levels => trivial
  · intro D nf hk hwell before hpre
    obtain ⟨rest, rfl⟩ := hpre
    have hall := ((Run.along_append.mp hw).1.and (Run.along_append.mp hk).1).and (Run.along_append.mp hwell).1
    have hinv := Run.run_inv Opened.act
      (I := fun _ y => y.Sound ∧ y.store.config = c ∧ Everywhere (WellFormed c.wire) y.store ∧ Cached y.store)
      (fun _ y a hy hc => ⟨hy.1.act a, (Opened.config_act hy.1 a).trans hy.2.1,
        Opened.everywhere_act hy.1 hy.2.2.1 (by rw [hy.2.1]; exact respects_wellFormed c.wire) hc.2,
        Opened.cached_act hy.1 hy.2.2.2 hc.1.1 hc.1.2⟩)
      before [] _ ⟨hstart, rfl, everywhere_new c, Opened.cached_start c h⟩ hall
    exact exports_cached nf hinv.2.2.1 hinv.2.2.2

end Steps

/-! ### A store that caches four records -/

/-- The note is stored, the store opened again, and the note read. -/
def noteRead : List (Act UInt32) :=
  [.turn (.call (.fastStore note [] 5) 0), .turn (.reopen (some 0) [1] fun _ => 0), .get 1 6]

theorem walks_noteRead : Along Opened.act Opened.Walks (.start fourCached plain) noteRead := by
  refine ⟨trivial, fun id hid => ?_, trivial, trivial⟩
  have hstored : (((MemoryStore.new fourCached).exec (.fastStore note [] 5)).exec .flush).contains id = true :=
    MemoryStore.contains_iff.mpr (.inr hid)
  rcases MemoryStore.contains_exec hstored with h | h
  · rcases MemoryStore.contains_exec h with h | h
    · rcases MemoryStore.contains_iff.mp h with h | h <;> cases h
    · have hone : some 1 = some id := h
      rw [← Option.some.inj hone]
      exact List.mem_singleton_self 1
  · cases h

theorem wellFormed_noteRead :
    Along Opened.act (Opened.WritesAll (WellFormed fourCached.wire)) (.start fourCached plain) noteRead := by
  refine ⟨fun id r hm => ?_, trivial, trivial, trivial⟩
  have hwrote : (id, r) ∈ [((1 : UInt64), MemoryStore.prepared note 5)] := hm
  obtain ⟨-, rfl⟩ := Prod.mk.inj (List.mem_singleton.mp hwrote)
  exact ⟨by decide, by decide, by decide⟩

/-- Tables are merged after that with no change. -/
def noteReadMerged : List (Paused (Act UInt32) (Answers UInt32)) :=
  noteRead.map .op ++ [.pause (run Opened.act (.start fourCached plain) noteRead).store.lsm]

/-- Five notes are stored. -/
def fiveNotes : List (Act UInt32) :=
  [1, 2, 3, 4, 5].map fun id => .turn (.call (.fastStore { note with memoryId := id } [] 5) 0)

end Memory
end Amind
