/-
# What a call does to the records

A call writes the records `wrote` one after another, into the storage engine
and into the cache unless it leaves the record out of there (`Puts`), and then
at most writes cached records back, gives some up or counts an access
(`Settles`). `exec_writes` says this of every call; what runs of calls keep
follows from it.
-/
import Amind.Memory.Store

namespace Amind
namespace Memory

open Amind.Core

/-- The record as it is stored but for what reading it changes. -/
def version {F : Type} (w : Wire F) (r : MemoryRecord F) : MemoryRecord F :=
  { r.wire w with accessCount := 0, lastAccessed := 0, tier := .working }

@[simp] theorem version_wire {F : Type} (w : Wire F) (r : MemoryRecord F) : version w (r.wire w) = version w r := by
  unfold version
  rw [MemoryRecord.wire_wire]

/-- Records that differ in what reading changes are stored as one version. -/
theorem version_congr {F : Type} {r r' : MemoryRecord F} (h : version .whole r = version .whole r') (w : Wire F) :
    version w r = version w r' := by
  have hw : ∀ r : MemoryRecord F, version w r = (version .whole r).wire w := fun _ => rfl
  rw [hw, hw, h]

section Relations

variable {F : Type}

/-- One write. -/
structure Put (s s' : MemoryStore F) (id : UInt64) (r : MemoryRecord F) : Prop where
  config : s'.config = s.config
  lsm : s'.lsm = Function.update s.lsm id (some (r.wire s.config.wire))
  self : s'.cache.lookup id = some r ∨ s'.cache.lookup id = none
  other : ∀ id' ≠ id, s'.cache.lookup id' = s.cache.lookup id'

/-- The writes, in order. -/
def Puts : MemoryStore F → List (UInt64 × MemoryRecord F) → MemoryStore F → Prop
  | s, [], s' => s'.config = s.config ∧ s'.lsm = s.lsm ∧ s'.cache = s.cache
  | s, (id, r) :: ws, s' => ∃ t, Put s t id r ∧ Puts t ws s'

/-- No write but of records that are cached, and nothing new in the cache. -/
structure Settles (s s' : MemoryStore F) : Prop where
  config : s'.config = s.config
  lsm : ∀ id, s'.lsm id = s.lsm id ∨
    ∃ r, s.cache.lookup id = some r ∧ s'.lsm id = some (r.wire s.config.wire)
  cache : ∀ id r, s'.cache.lookup id = some r →
    ∃ r₀, s.cache.lookup id = some r₀ ∧ version .whole r = version .whole r₀

theorem Settles.refl (s : MemoryStore F) : Settles s s := ⟨rfl, fun _ => .inl rfl, fun _ r h => ⟨r, h, rfl⟩⟩

end Relations

namespace MemoryStore

/-! ### Parts -/

section Parts

variable {F : Type} {s : MemoryStore F} {id id' : UInt64} {r : MemoryRecord F} {v : List F}

@[simp] theorem config_putRaw : (s.putRaw id r).config = s.config := rfl

@[simp] theorem config_cachePut : (s.cachePut id r).config = s.config := rfl

@[simp] theorem config_softDelete : (s.softDelete id).config = s.config := rfl

@[simp] theorem config_hnswInsert : (s.hnswInsert id v).config = s.config := by
  unfold hnswInsert
  split <;> rfl

@[simp] theorem lsm_putRaw : (s.putRaw id r).lsm = Function.update s.lsm id (some (r.wire s.config.wire)) := rfl

@[simp] theorem cache_putRaw : (s.putRaw id r).cache = s.cache := rfl

@[simp] theorem lsm_cachePut : (s.cachePut id r).lsm = s.lsm := rfl

@[simp] theorem cache_cachePut : (s.cachePut id r).cache = s.cache.insert id r := rfl

@[simp] theorem lsm_softDelete : (s.softDelete id).lsm = s.lsm := rfl

@[simp] theorem cache_softDelete : (s.softDelete id).cache = s.cache := rfl

@[simp] theorem lsm_hnswInsert : (s.hnswInsert id v).lsm = s.lsm := by
  unfold hnswInsert
  split <;> rfl

@[simp] theorem cache_hnswInsert : (s.hnswInsert id v).cache = s.cache := by
  unfold hnswInsert
  split <;> rfl

@[simp] theorem idGen_putRaw : (s.putRaw id r).idGen = s.idGen := rfl

@[simp] theorem idGen_cachePut : (s.cachePut id r).idGen = s.idGen := rfl

@[simp] theorem idGen_hnswInsert : (s.hnswInsert id v).idGen = s.idGen := by
  unfold hnswInsert
  split <;> rfl

/-- Writing a record through, with the cached one replaced. -/
theorem put_through {t : MemoryStore F} (hf : t.config = s.config) (hl : t.lsm = s.lsm) (hc : t.cache = s.cache) :
    Put s ((t.putRaw id r).cachePut id r) id r where
  config := by simp [hf]
  lsm := by simp [hl, hf]
  self := .inl (by simp)
  other := fun id' h => by simp [hc, AList.lookup_insert_ne h]

/-- Writing a record to the storage engine only. -/
theorem put_stored {t : MemoryStore F} (hf : t.config = s.config) (hl : t.lsm = s.lsm) (hc : t.cache = s.cache)
    (h : s.cache.lookup id = none) : Put s (t.putRaw id r) id r where
  config := by simp [hf]
  lsm := by simp [hl, hf]
  self := .inr (by simp [hc, h])
  other := fun id' _ => by simp [hc]

/-- Writing cached records back changes the storage engine only. -/
theorem putRaw_foldl (ids : List UInt64) (s : MemoryStore F) (id : UInt64) :
    let s' := ids.foldl (fun s id => match s.cache.lookup id with | some r => s.putRaw id r | none => s) s
    s'.config = s.config ∧ s'.cache = s.cache ∧ s'.idGen = s.idGen ∧ s'.hnsw = s.hnsw ∧
      (s'.lsm id = s.lsm id ∨ ∃ r, s.cache.lookup id = some r ∧ s'.lsm id = some (r.wire s.config.wire)) := by
  induction ids generalizing s with
  | nil => exact ⟨rfl, rfl, rfl, rfl, .inl rfl⟩
  | cons i ids ih =>
    rw [List.foldl_cons]
    rcases hi : s.cache.lookup i with _ | r
    · exact ih s
    · obtain ⟨hf, hc, hg, hh, hl⟩ := ih (s.putRaw i r)
      refine ⟨hf, hc, hg, hh, ?_⟩
      rcases hl with hl | hl
      · by_cases h : id = i
        · subst h
          exact .inr ⟨r, hi, hl.trans (by simp)⟩
        · exact .inl (hl.trans (by simp [h]))
      · exact .inr hl

theorem settles_flushDirtyRecords (s : MemoryStore F) : Settles s s.flushDirtyRecords where
  config := (putRaw_foldl s.dirtyIds s 0).1
  lsm := fun id => (putRaw_foldl s.dirtyIds s id).2.2.2.2
  cache := fun id r h => by
    have hc : s.flushDirtyRecords.cache = s.cache := (putRaw_foldl s.dirtyIds s id).2.1
    rw [hc] at h
    exact ⟨r, h, rfl⟩

theorem lookup_erase_foldl (es : List (UInt32 × UInt64)) (c : AList fun _ : UInt64 => MemoryRecord F) {id : UInt64}
    {r : MemoryRecord F} (h : (es.foldl (fun c e => c.erase e.2) c).lookup id = some r) : c.lookup id = some r := by
  induction es generalizing c with
  | nil => exact h
  | cons e es ih =>
    have := ih _ h
    by_cases he : id = e.2
    · rw [he, AList.lookup_erase] at this
      cases this
    · rwa [AList.lookup_erase_ne he] at this

theorem settles_evictIfNeeded (s : MemoryStore F) : Settles s s.evictIfNeeded := by
  unfold evictIfNeeded
  split
  · exact Settles.refl s
  · have hf := settles_flushDirtyRecords s
    exact ⟨hf.config, hf.lsm, fun id r h => hf.cache id r (lookup_erase_foldl _ _ h)⟩

theorem load_cached (h : s.cache.lookup id = some r) :
    s.load id = some r := by
  rw [load, h]
  rfl

theorem load_stored (h : s.cache.lookup id = none) : s.load id = s.lsm id := by
  rw [load, h]
  rfl

theorem toOption_peek : (s.peek id).toOption = s.load id := by
  unfold peek
  split
  · rename_i h
    rw [h]
    rfl
  · rename_i h
    rw [h]
    rfl

theorem contains_iff : s.contains id = true ↔ (s.cache.lookup id).isSome ∨ (s.lsm id).isSome := by
  unfold contains
  rw [Bool.or_eq_true]

theorem contains_of_load (h : s.load id = some r) : s.contains id = true := by
  rw [contains_iff, ← Bool.or_eq_true, ← Option.isSome_or]
  exact Option.isSome_of_eq_some h

theorem puts_nil (s : MemoryStore F) : Puts s [] s := ⟨rfl, rfl, rfl⟩

theorem puts_one {s' : MemoryStore F} (h : Put s s' id r) : Puts s [(id, r)] s' := ⟨s', h, rfl, rfl, rfl⟩

theorem storeRecord_writes {t : MemoryStore F} (hf : t.config = s.config) (hl : t.lsm = s.lsm)
    (hc : t.cache = s.cache) (r : MemoryRecord F) :
    ∃ s₁, Puts s [(r.memoryId, r)] s₁ ∧ Settles s₁ (t.storeRecord r) := by
  refine ⟨_, puts_one (put_through ?_ ?_ ?_), settles_evictIfNeeded _⟩
  · split
    · rw [config_hnswInsert, hf]
    · exact hf
  · split
    · rw [lsm_hnswInsert, hl]
    · exact hl
  · split
    · rw [cache_hnswInsert, hc]
    · exact hc

theorem prepared_memoryId (r : MemoryRecord F) (now : UInt32) : (prepared r now).memoryId = r.memoryId := by
  unfold prepared
  dsimp only
  split <;> split <;> rfl

/-! ### Drawing ids -/

theorem idGen_flushDirtyRecords (s : MemoryStore F) : s.flushDirtyRecords.idGen = s.idGen :=
  (putRaw_foldl s.dirtyIds s 0).2.2.1

theorem idGen_storeRecord (s : MemoryStore F) (r : MemoryRecord F) : (s.storeRecord r).idGen = s.idGen := by
  have hevict : ∀ t : MemoryStore F, t.evictIfNeeded.idGen = t.idGen := by
    intro t
    unfold evictIfNeeded
    split
    · rfl
    · exact idGen_flushDirtyRecords t
  unfold storeRecord
  rw [hevict]
  show (if r.embedding ≠ [] then s.hnswInsert r.memoryId r.embedding else s).idGen = _
  split
  · exact idGen_hnswInsert
  · rfl

theorem idGen_modify (s : MemoryStore F) (id : UInt64) (f : MemoryRecord F → MemoryRecord F) :
    (s.modify id f).idGen = s.idGen := by
  unfold modify
  split <;> rfl

/-- A call on a store with the generator `g` that drew an id from it keeps what
the draw left. One that drew none keeps `g`, and stores nothing new if it had
to draw. -/
def Draws (g g' : SnowflakeGenerator) (generates : Prop) (created : Option UInt64) : Prop :=
  g' = g ∧ (generates → created = none) ∨ ∃ clock id, g.nextId clock = .returned id g' ∧ created = some id

theorem draws_fastStore (s : MemoryStore F) (r : MemoryRecord F) (clock : List ℤ) (now : UInt32) :
    Draws s.idGen (s.fastStore r clock now).1.idGen (r.memoryId = 0) (s.fastStore r clock now).2.id := by
  unfold fastStore
  by_cases h₀ : r.memoryId = 0
  · rw [if_pos h₀]
    cases hn : s.idGen.nextId clock with
    | returned id g => exact .inr ⟨clock, id, by rw [hn, idGen_storeRecord], rfl⟩
    | thrown => exact .inl ⟨rfl, fun _ => rfl⟩
    | waiting => exact .inl ⟨rfl, fun _ => rfl⟩
  · rw [if_neg h₀]
    exact .inl ⟨idGen_storeRecord s _, fun h => absurd h h₀⟩

theorem draws_update (s : MemoryStore F) (i : UInt64) (c : Text) (v : List F) (clock : List ℤ) (now : UInt32) :
    Draws s.idGen (s.update i c v clock now).1.idGen True (s.update i c v clock now).2.id := by
  unfold update
  cases s.load i with
  | none => exact .inl ⟨rfl, fun _ => rfl⟩
  | some old =>
    cases hn : s.idGen.nextId clock with
    | returned id g =>
      refine .inr ⟨clock, id, ?_, rfl⟩
      rw [hn]
      dsimp only
      split
      · rw [idGen_cachePut, idGen_putRaw, idGen_hnswInsert]
        rfl
      · rfl
    | thrown => exact .inl ⟨rfl, fun _ => rfl⟩
    | waiting => exact .inl ⟨rfl, fun _ => rfl⟩

theorem idGen_remove (s : MemoryStore F) (i : UInt64) : (s.remove i).1.idGen = s.idGen := by
  unfold remove
  dsimp only
  split
  · rfl
  · split <;> rfl

theorem idGen_archive (s : MemoryStore F) (i : UInt64) : (s.archive i).1.idGen = s.idGen := by
  unfold archive
  dsimp only
  split
  · rfl
  · split <;> rfl

/-! ### Removing -/

theorem remove_cached (h : s.cache.lookup id = some r) : (s.remove id).1 =
    { (s.softDelete id).putRaw id r.markTombstone with cache := s.cache.erase id } := by
  simp only [remove, cache_softDelete, h]

theorem remove_stored (h : s.cache.lookup id = none) (hl : s.lsm id = some r) :
    (s.remove id).1 = (s.softDelete id).putRaw id r.markTombstone := by
  simp only [remove, cache_softDelete, lsm_softDelete, h, hl]

theorem remove_missing (h : s.cache.lookup id = none) (hl : s.lsm id = none) :
    (s.remove id).1 = s.softDelete id := by
  simp only [remove, cache_softDelete, lsm_softDelete, h, hl]

theorem load_remove_self (s : MemoryStore F) (id : UInt64) :
    (s.remove id).1.load id = (s.load id).map fun r => r.markTombstone.wire s.config.wire := by
  rcases hc : s.cache.lookup id with _ | r
  · rw [load_stored hc]
    rcases hl : s.lsm id with _ | r
    · rw [remove_missing hc hl]
      exact (load_stored hc).trans hl
    · have hc' : ((s.softDelete id).putRaw id r.markTombstone).cache.lookup id = none := hc
      rw [remove_stored hc hl, load_stored hc']
      simp
  · rw [load_cached hc, remove_cached hc, load_stored (AList.lookup_erase id s.cache)]
    simp

theorem load_remove_other (h : id' ≠ id) : (s.remove id).1.load id' = s.load id' := by
  rcases hc : s.cache.lookup id with _ | r
  · rcases hl : s.lsm id with _ | r
    · rw [remove_missing hc hl]
      rfl
    · rw [remove_stored hc hl]
      simp [load, h]
  · rw [remove_cached hc]
    simp [load, h, AList.lookup_erase_ne h]

/-- A change of a record writes what it is changed to. -/
theorem modify_writes {s t : MemoryStore F} (hf : t.config = s.config) (hl : t.lsm = s.lsm) (hc : t.cache = s.cache)
    (id : UInt64) (f : MemoryRecord F → MemoryRecord F) :
    ∃ s₁, Puts s ((s.load id).toList.map fun r => (id, f r)) s₁ ∧ Settles s₁ (t.modify id f) := by
  have hload : t.load id = s.load id := by rw [load, load, hl, hc]
  unfold modify
  rw [hload]
  cases hr : s.load id with
  | some r => exact ⟨_, puts_one (put_through hf hl hc), Settles.refl _⟩
  | none => exact ⟨t, ⟨hf, hl, hc⟩, Settles.refl _⟩

end Parts

end MemoryStore

section Ids

variable {F : Type} {s s' : MemoryStore F} {id : UInt64}

theorem Puts.stored {ws : List (UInt64 × MemoryRecord F)} (h : Puts s ws s')
    (hs : (s.lsm id).isSome ∨ ∃ r, (id, r) ∈ ws) : (s'.lsm id).isSome := by
  induction ws generalizing s with
  | nil =>
    rw [h.2.1]
    exact hs.resolve_right fun ⟨r, hr⟩ => absurd hr List.not_mem_nil
  | cons x ws ih =>
    obtain ⟨t, ht, hrest⟩ := h
    refine ih hrest ?_
    rw [ht.lsm]
    by_cases he : id = x.1
    · subst he
      exact .inl (by simp)
    · rw [Function.update_of_ne he]
      refine hs.imp_right fun ⟨r, hr⟩ => ⟨r, ?_⟩
      rcases List.mem_cons.mp hr with hr | hr
      · exact absurd (congrArg Prod.fst hr) he
      · exact hr

theorem Puts.contains {ws : List (UInt64 × MemoryRecord F)} (h : Puts s ws s') (hc : s'.contains id = true) :
    s.contains id = true ∨ ∃ r, (id, r) ∈ ws := by
  induction ws generalizing s with
  | nil =>
    rw [MemoryStore.contains_iff, h.2.1, h.2.2] at hc
    exact .inl (MemoryStore.contains_iff.mpr hc)
  | cons x ws ih =>
    obtain ⟨t, ht, hrest⟩ := h
    rcases ih hrest with ht' | ⟨r, hr⟩
    · by_cases he : id = x.1
      · exact .inr ⟨x.2, by rw [he]; exact List.mem_cons_self⟩
      · rw [MemoryStore.contains_iff, ht.lsm, Function.update_of_ne he, ht.other id he] at ht'
        exact .inl (MemoryStore.contains_iff.mpr ht')
    · exact .inr ⟨r, List.mem_cons_of_mem _ hr⟩

theorem Puts.config {ws : List (UInt64 × MemoryRecord F)} (h : Puts s ws s') : s'.config = s.config := by
  induction ws generalizing s with
  | nil => exact h.1
  | cons x ws ih =>
    obtain ⟨t, ht, hrest⟩ := h
    exact (ih hrest).trans ht.config

theorem Settles.stored (h : Settles s s') (hs : (s.lsm id).isSome) : (s'.lsm id).isSome := by
  rcases h.lsm id with hl | ⟨r, -, hl⟩
  · rwa [hl]
  · rw [hl]
    rfl

theorem Settles.contains (h : Settles s s') (hc : s'.contains id = true) : s.contains id = true := by
  rw [MemoryStore.contains_iff] at hc ⊢
  rcases hc with hc | hc
  · obtain ⟨r, hr⟩ := Option.isSome_iff_exists.mp hc
    obtain ⟨r₀, h₀, -⟩ := h.cache id r hr
    exact .inl (Option.isSome_of_eq_some h₀)
  · rcases h.lsm id with hl | ⟨r, hr, -⟩
    · rw [hl] at hc
      exact .inr hc
    · exact .inl (Option.isSome_of_eq_some hr)

end Ids

namespace MemoryStore

/-! ### Calls -/

section Calls

variable {F : Type} [Floats F]

theorem version_tryPromote (w : Wire F) (c : Config F) (r : MemoryRecord F) :
    version w (tryPromote c r) = version w r := by
  unfold tryPromote
  split
  · split <;> rfl
  · split <;> rfl
  · rfl

theorem fastStore_writes (s : MemoryStore F) (r : MemoryRecord F) (clock : List ℤ) (now : UInt32) :
    ∃ s₁, Puts s (s.wrote (.fastStore r clock now)) s₁ ∧ Settles s₁ (s.exec (.fastStore r clock now)) := by
  show ∃ s₁, Puts s ((s.fastStore r clock now).2.id.toList.map fun id => (id, prepared { r with memoryId := id } now))
    s₁ ∧ Settles s₁ (s.fastStore r clock now).1
  unfold fastStore
  by_cases h₀ : r.memoryId = 0
  · rw [if_pos h₀]
    cases hn : s.idGen.nextId clock with
    | returned id g =>
      have h := storeRecord_writes (s := s) (t := { s with idGen := g }) rfl rfl rfl (prepared { r with memoryId := id } now)
      rwa [prepared_memoryId] at h
    | thrown => exact ⟨s, puts_nil s, Settles.refl s⟩
    | waiting => exact ⟨s, puts_nil s, Settles.refl s⟩
  · rw [if_neg h₀]
    have h := storeRecord_writes (s := s) (t := s) rfl rfl rfl (prepared r now)
    rwa [prepared_memoryId] at h

theorem update_writes (s : MemoryStore F) (id : UInt64) (c : Text) (v : List F) (clock : List ℤ) (now : UInt32) :
    ∃ s₁, Puts s (s.wrote (.update id c v clock now)) s₁ ∧ Settles s₁ (s.exec (.update id c v clock now)) := by
  show ∃ s₁, Puts s ((s.load id).toList.flatMap fun old => (s.update id c v clock now).2.id.toList.flatMap fun newId =>
    [(id, old.markVersioned), (newId, newVersion old newId c v now)]) s₁ ∧ Settles s₁ (s.update id c v clock now).1
  unfold update
  cases hl : s.load id with
  | none => exact ⟨s, puts_nil s, Settles.refl s⟩
  | some old =>
    cases hn : s.idGen.nextId clock with
    | returned newId g =>
      refine ⟨_, ⟨_, put_through (t := { s with idGen := g }) rfl rfl rfl, puts_one (put_through ?_ ?_ ?_)⟩,
        Settles.refl _⟩
      · split
        · rw [config_hnswInsert]
        · rfl
      · split
        · rw [lsm_hnswInsert]
        · rfl
      · split
        · rw [cache_hnswInsert]
        · rfl
    | thrown => exact ⟨s, puts_nil s, Settles.refl s⟩
    | waiting => exact ⟨s, puts_nil s, Settles.refl s⟩

theorem remove_writes (s : MemoryStore F) (id : UInt64) :
    ∃ s₁, Puts s (s.wrote (.remove id)) s₁ ∧ Settles s₁ (s.exec (.remove id)) := by
  show ∃ s₁, Puts s ((s.load id).toList.map fun r => (id, r.markTombstone)) s₁ ∧ Settles s₁ (s.remove id).1
  rcases hc : s.cache.lookup id with _ | r
  · rw [load_stored hc]
    rcases hl : s.lsm id with _ | r
    · rw [remove_missing hc hl]
      exact ⟨s.softDelete id, ⟨rfl, rfl, rfl⟩, Settles.refl _⟩
    · rw [remove_stored hc hl]
      exact ⟨_, puts_one (put_stored (t := s.softDelete id) rfl rfl rfl hc), Settles.refl _⟩
  · rw [load_cached hc, remove_cached hc]
    refine ⟨_, puts_one ⟨?_, ?_, .inr ?_, fun id' h => ?_⟩, Settles.refl _⟩
    · rfl
    · rfl
    · exact AList.lookup_erase id s.cache
    · exact AList.lookup_erase_ne h

theorem archive_writes (s : MemoryStore F) (id : UInt64) :
    ∃ s₁, Puts s (s.wrote (.archive id)) s₁ ∧ Settles s₁ (s.exec (.archive id)) := by
  show ∃ s₁, Puts s ((s.load id).toList.map fun r => (id, archived r)) s₁ ∧ Settles s₁ (s.archive id).1
  simp only [archive, cache_softDelete, lsm_softDelete]
  cases hc : s.cache.lookup id with
  | some r =>
    rw [load_cached hc]
    exact ⟨_, puts_one (put_through (t := s.softDelete id) rfl rfl rfl), Settles.refl _⟩
  | none =>
    rw [load_stored hc]
    cases hl : s.lsm id with
    | some r => exact ⟨_, puts_one (put_stored (t := s.softDelete id) rfl rfl rfl hc), Settles.refl _⟩
    | none => exact ⟨s.softDelete id, ⟨rfl, rfl, rfl⟩, Settles.refl _⟩

theorem getCached_settles (s : MemoryStore F) (id : UInt64) (now : UInt32) :
    Settles s (s.exec (.getCached id now)) := by
  show Settles s (((s.getCached id now).map (·.1)).getD s)
  unfold getCached
  cases hc : s.cache.lookup id with
  | none => exact Settles.refl s
  | some r =>
    refine ⟨rfl, fun _ => .inl rfl, fun id' r' h => ?_⟩
    have h' : (s.cache.insert id (tryPromote s.config (touch r now))).lookup id' = some r' := h
    by_cases he : id' = id
    · subst he
      rw [AList.lookup_insert] at h'
      cases h'
      exact ⟨r, hc, version_tryPromote _ s.config (touch r now)⟩
    · rw [AList.lookup_insert_ne he] at h'
      exact ⟨r', h', rfl⟩

/-- Every call writes its records and then settles. -/
theorem exec_writes (s : MemoryStore F) (op : Op F) : ∃ s₁, Puts s (s.wrote op) s₁ ∧ Settles s₁ (s.exec op) := by
  cases op with
  | fastStore r clock now => exact fastStore_writes s r clock now
  | update id c v clock now => exact update_writes s id c v clock now
  | remove id => exact remove_writes s id
  | archive id => exact archive_writes s id
  | setEmbedding id v =>
    apply modify_writes
    · split
      · rw [config_hnswInsert]
      · rfl
    · split
      · rw [lsm_hnswInsert]
      · rfl
    · split
      · rw [cache_hnswInsert]
      · rfl
  | boostImportance id delta =>
    unfold wrote exec boostImportance
    dsimp only
    split
    · exact modify_writes rfl rfl rfl id _
    · exact ⟨s, puts_nil s, Settles.refl s⟩
  | updateInPlace id c =>
    unfold wrote exec updateInPlace
    dsimp only
    split
    · exact modify_writes rfl rfl rfl id _
    · exact ⟨s, puts_nil s, Settles.refl s⟩
  | flush => exact ⟨s, puts_nil s, settles_flushDirtyRecords s⟩
  | getCached id now => exact ⟨s, puts_nil s, getCached_settles s id now⟩

/-! ### What is written -/

variable {s : MemoryStore F} {op : Op F} {id : UInt64}

/-- What a record is that a call writes under an id: a new one, or what the call
makes of the one it finds there. -/
inductive Wrote (s : MemoryStore F) : Op F → UInt64 → MemoryRecord F → Prop
  | stored (r : MemoryRecord F) (clock : List ℤ) (now : UInt32) {id : UInt64}
    (h : (s.fastStore r clock now).2.id = some id) :
    s.Wrote (.fastStore r clock now) id (prepared { r with memoryId := id } now)
  | versioned (c : Text) (v : List F) (clock : List ℤ) (now : UInt32) {id : UInt64} {old : MemoryRecord F}
    (h : s.load id = some old) : s.Wrote (.update id c v clock now) id old.markVersioned
  | replacing {id newId : UInt64} {c : Text} {v : List F} {clock : List ℤ} {now : UInt32} {old : MemoryRecord F}
    (h : s.load id = some old) (hnew : (s.update id c v clock now).2.id = some newId) :
    s.Wrote (.update id c v clock now) newId (newVersion old newId c v now)
  | removed {id : UInt64} {r : MemoryRecord F} (h : s.load id = some r) : s.Wrote (.remove id) id r.markTombstone
  | archived {id : UInt64} {r : MemoryRecord F} (h : s.load id = some r) : s.Wrote (.archive id) id (archived r)
  | embedded (v : List F) {id : UInt64} {r : MemoryRecord F} (h : s.load id = some r) :
    s.Wrote (.setEmbedding id v) id (withEmbedding v r)
  | boosted (delta : F) {id : UInt64} {r : MemoryRecord F} (h : s.load id = some r) :
    s.Wrote (.boostImportance id delta) id (boosted delta r)
  | rewritten (c : Text) {id : UInt64} {r : MemoryRecord F} (h : s.load id = some r) :
    s.Wrote (.updateInPlace id c) id { r with content := c }

theorem wrote_inv {r : MemoryRecord F} (h : (id, r) ∈ s.wrote op) : s.Wrote op id r := by
  -- a call that changes the record it finds
  have hfound : ∀ {i : UInt64} {f : MemoryRecord F → MemoryRecord F},
      (id, r) ∈ (s.load i).toList.map (fun r => (i, f r)) → i = id ∧ ∃ r₀, s.load id = some r₀ ∧ r = f r₀ := by
    intro i f hm
    obtain ⟨r₀, h₀, he⟩ := List.mem_map.mp hm
    cases he
    exact ⟨rfl, r₀, Option.mem_toList.mp h₀, rfl⟩
  cases op with
  | fastStore r' clock now =>
    obtain ⟨i, hi, he⟩ := List.mem_map.mp h
    cases he
    exact .stored r' clock now (Option.mem_toList.mp hi)
  | update i c v clock now =>
    obtain ⟨old, hold, hm⟩ := List.mem_flatMap.mp h
    obtain ⟨newId, hnew, hm⟩ := List.mem_flatMap.mp hm
    rcases List.mem_cons.mp hm with he | hm
    · cases he
      exact .versioned c v clock now (Option.mem_toList.mp hold)
    · cases List.mem_singleton.mp hm
      exact .replacing (Option.mem_toList.mp hold) (Option.mem_toList.mp hnew)
  | remove i =>
    obtain ⟨rfl, r₀, h₀, rfl⟩ := hfound h
    exact .removed h₀
  | archive i =>
    obtain ⟨rfl, r₀, h₀, rfl⟩ := hfound h
    exact .archived h₀
  | setEmbedding i v =>
    obtain ⟨rfl, r₀, h₀, rfl⟩ := hfound h
    exact .embedded v h₀
  | boostImportance i delta =>
    unfold wrote at h
    dsimp only at h
    split at h
    · obtain ⟨rfl, r₀, h₀, rfl⟩ := hfound h
      exact .boosted delta h₀
    · cases h
  | updateInPlace i c =>
    unfold wrote at h
    dsimp only at h
    split at h
    · obtain ⟨rfl, r₀, h₀, rfl⟩ := hfound h
      exact .rewritten c h₀
    · cases h
  | flush => cases h
  | getCached i now => cases h

/-- A call writes a record it creates, or one it finds. It leaves no removed
record alive. -/
theorem wrote_cases {r : MemoryRecord F} (h : (id, r) ∈ s.wrote op) :
    s.created op = some id ∨
      ∃ r₀, s.load id = some r₀ ∧ (r₀.Tombstoned → r.Tombstoned) ∧ (op.removes = some id → r.Tombstoned) := by
  cases wrote_inv h with
  | stored r' clock now hid => exact .inl hid
  | versioned c v clock now h₀ => exact .inr ⟨_, h₀, MemoryRecord.Tombstoned.markVersioned, nofun⟩
  | replacing h₀ hnew => exact .inl hnew
  | @removed _ r₀ h₀ =>
    have ht := MemoryRecord.tombstoned_markTombstone r₀
    exact .inr ⟨r₀, h₀, fun _ => ht, fun _ => ht⟩
  | archived h₀ => exact .inr ⟨_, h₀, fun ht => ht, nofun⟩
  | embedded v h₀ => exact .inr ⟨_, h₀, fun ht => ht.flag rfl, nofun⟩
  | boosted delta h₀ => exact .inr ⟨_, h₀, fun ht => ht, nofun⟩
  | rewritten c h₀ => exact .inr ⟨_, h₀, fun ht => ht, nofun⟩

/-- A call writes no record but the one it changes and one it creates. -/
theorem target_of_wrote {r : MemoryRecord F} (h : (id, r) ∈ s.wrote op) :
    op.target = some id ∨ s.created op = some id := by
  cases wrote_inv h with
  | stored r' clock now hid => exact .inr hid
  | replacing h₀ hnew => exact .inr hnew
  | _ => exact .inl rfl

/-- A record written by a call has the id it is written under, if the one found
there has. -/
theorem memoryId_of_wrote {r : MemoryRecord F} (ho : ∀ r₀, s.load id = some r₀ → r₀.memoryId = id)
    (h : (id, r) ∈ s.wrote op) : r.memoryId = id := by
  have hfound : ∀ {r₀ r : MemoryRecord F}, s.load id = some r₀ → r.memoryId = r₀.memoryId → r.memoryId = id :=
    fun h₀ he => he.trans (ho _ h₀)
  cases wrote_inv h with
  | stored r' clock now hid => exact prepared_memoryId _ now
  | replacing h₀ hnew =>
    unfold newVersion
    dsimp only
    split <;> rfl
  | versioned c v clock now h₀ => exact hfound h₀ rfl
  | removed h₀ => exact hfound h₀ rfl
  | archived h₀ => exact hfound h₀ rfl
  | embedded v h₀ => exact hfound h₀ rfl
  | boosted delta h₀ => exact hfound h₀ rfl
  | rewritten c h₀ => exact hfound h₀ rfl

/-- A call that removes a record writes it, if there is one. -/
theorem load_of_removes (ho : op.removes = some id) (h : ∀ r, (id, r) ∉ s.wrote op) : s.load id = none := by
  cases op with
  | remove i =>
    cases ho
    rw [Option.eq_none_iff_forall_not_mem]
    intro r hr
    exact h r.markTombstone (List.mem_map.mpr ⟨r, Option.mem_toList.mpr hr, rfl⟩)
  | _ => cases ho

/-- A call that creates a record writes it. -/
theorem wrote_created (h : s.created op = some id) : ∃ r, (id, r) ∈ s.wrote op := by
  cases op with
  | fastStore r clock now => exact ⟨_, List.mem_map.mpr ⟨id, Option.mem_toList.mpr h, rfl⟩⟩
  | update i c v clock now =>
    cases hl : s.load i with
    | none =>
      have h' : (s.update i c v clock now).2.id = some id := h
      rw [update, hl] at h'
      cases h'
    | some old =>
      exact ⟨_, List.mem_flatMap.mpr ⟨old, Option.mem_toList.mpr hl, List.mem_flatMap.mpr
        ⟨id, Option.mem_toList.mpr h, List.mem_cons_of_mem _ (List.mem_singleton.mpr rfl)⟩⟩⟩
  | _ => cases h

/-! ### The ids in a store -/

/-- What is stored stays stored, and so is what a call creates. -/
theorem stored_exec (h : (s.lsm id).isSome ∨ s.created op = some id) : ((s.exec op).lsm id).isSome := by
  obtain ⟨s₁, hp, hs⟩ := s.exec_writes op
  exact hs.stored (hp.stored (h.imp_right wrote_created))

/-- A call adds no id but the one it creates. -/
theorem contains_exec (h : (s.exec op).contains id = true) : s.contains id = true ∨ s.created op = some id := by
  obtain ⟨s₁, hp, hs⟩ := s.exec_writes op
  rcases hp.contains (hs.contains h) with h | ⟨r, hw⟩
  · exact .inl h
  · rcases wrote_cases hw with hc | ⟨r₀, hl, -⟩
    · exact .inr hc
    · exact .inl (contains_of_load hl)

/-! ### The generator -/

theorem draws_exec (s : MemoryStore F) (op : Op F) :
    Draws s.idGen (s.exec op).idGen op.Generates (s.created op) := by
  cases op with
  | fastStore r clock now => exact s.draws_fastStore r clock now
  | update i c v clock now => exact s.draws_update i c v clock now
  | remove i => exact .inl ⟨s.idGen_remove i, fun _ => rfl⟩
  | archive i => exact .inl ⟨s.idGen_archive i, fun _ => rfl⟩
  | setEmbedding i v =>
    refine .inl ⟨(idGen_modify _ i _).trans ?_, fun _ => rfl⟩
    split
    · exact idGen_hnswInsert
    · rfl
  | boostImportance i delta =>
    refine .inl ⟨?_, fun _ => rfl⟩
    show (s.boostImportance i delta).idGen = _
    unfold boostImportance
    split
    · exact idGen_modify s i _
    · rfl
  | updateInPlace i c =>
    refine .inl ⟨?_, fun _ => rfl⟩
    show (s.updateInPlace i c).idGen = _
    unfold updateInPlace
    split
    · exact idGen_modify s i _
    · rfl
  | flush => exact .inl ⟨idGen_flushDirtyRecords s, fun _ => rfl⟩
  | getCached i now =>
    refine .inl ⟨?_, fun _ => rfl⟩
    show (((s.getCached i now).map (·.1)).getD s).idGen = _
    unfold getCached
    cases s.cache.lookup i <;> rfl

/-- The id a call draws has the worker of the store's generator, and the
timestamp and sequence number it is left with. -/
theorem created_pack (hg : op.Generates) (h : s.created op = some id) :
    id = SnowflakeGenerator.pack (s.exec op).idGen.lastTimestampMs s.idGen.workerId (s.exec op).idGen.sequence := by
  rcases s.draws_exec op with ⟨-, hnone⟩ | ⟨clock, i, hn, hc⟩
  · rw [hnone hg] at h
    cases h
  · obtain ⟨hw, hid⟩ := SnowflakeGenerator.nextId_returned hn
    rw [hc] at h
    cases h
    rw [← hw]
    exact hid

theorem workerId_exec (s : MemoryStore F) (op : Op F) : (s.exec op).idGen.workerId = s.idGen.workerId := by
  rcases s.draws_exec op with ⟨hg, -⟩ | ⟨clock, i, hn, -⟩
  · rw [hg]
  · exact (SnowflakeGenerator.nextId_returned hn).1

end Calls

end MemoryStore

/-! ### Versions -/

/-- The versions with the writes `ws` after them. -/
def after {F : Type} (wire : Wire F) (w : UInt64 → Option (MemoryRecord F)) (ws : List (UInt64 × MemoryRecord F)) :
    UInt64 → Option (MemoryRecord F) :=
  ws.foldl (fun w x => Function.update w x.1 (some (version wire x.2))) w

theorem after_one {F : Type} (wire : Wire F) (w : UInt64 → Option (MemoryRecord F)) (i : UInt64) (r : MemoryRecord F)
    (id : UInt64) : after wire w [(i, r)] id = if id = i then some (version wire r) else w id :=
  Function.update_apply w i _ id

theorem after_two {F : Type} (wire : Wire F) (w : UInt64 → Option (MemoryRecord F)) (i j : UInt64)
    (r t : MemoryRecord F) (id : UInt64) : after wire w [(i, r), (j, t)] id =
      if id = j then some (version wire t) else if id = i then some (version wire r) else w id := by
  show after wire (after wire w [(i, r)]) [(j, t)] id = _
  rw [after_one, after_one]

/-- The stored and the cached versions are those in `w`. -/
structure Tracks {F : Type} (s : MemoryStore F) (w : UInt64 → Option (MemoryRecord F)) : Prop where
  stored : ∀ id, (s.lsm id).map (version s.config.wire) = w id
  cached : ∀ id r, s.cache.lookup id = some r → w id = some (version s.config.wire r)

section Tracks

variable {F : Type} {s s' : MemoryStore F} {w : UInt64 → Option (MemoryRecord F)}

/-- A new store tracks that it is empty. -/
theorem Tracks.new (c : Config F) :
    Tracks (MemoryStore.new c) fun id => ((MemoryStore.new c).lsm id).map (version c.wire) where
  stored := fun _ => rfl
  cached := fun id r h => by
    have hempty : (MemoryStore.new c).cache.lookup id = none := AList.lookup_empty id
    rw [hempty] at h
    cases h

theorem Tracks.load (h : Tracks s w) (id : UInt64) : (s.load id).map (version s.config.wire) = w id := by
  rcases hc : s.cache.lookup id with _ | r
  · rw [MemoryStore.load_stored hc]
    exact h.stored id
  · rw [MemoryStore.load_cached hc]
    exact (h.cached id r hc).symm

theorem Tracks.put (h : Tracks s w) {id : UInt64} {r : MemoryRecord F} (hp : Put s s' id r) :
    Tracks s' (Function.update w id (some (version s.config.wire r))) where
  stored := fun id' => by
    rw [hp.lsm, hp.config]
    by_cases he : id' = id
    · subst he
      simp
    · rw [Function.update_of_ne he, Function.update_of_ne he]
      exact h.stored id'
  cached := fun id' r' hc => by
    rw [hp.config]
    by_cases he : id' = id
    · subst he
      rw [Function.update_self]
      rcases hp.self with hs | hs <;> rw [hs] at hc
      · cases hc
        rfl
      · cases hc
    · rw [Function.update_of_ne he]
      rw [hp.other id' he] at hc
      exact h.cached id' r' hc

theorem Tracks.puts (h : Tracks s w) {ws : List (UInt64 × MemoryRecord F)} (hp : Puts s ws s') :
    Tracks s' (after s.config.wire w ws) := by
  induction ws generalizing s w with
  | nil => exact ⟨by rw [hp.1, hp.2.1]; exact h.stored, by rw [hp.1, hp.2.2]; exact h.cached⟩
  | cons x ws ih =>
    obtain ⟨t, ht, hrest⟩ := hp
    have hrun := ih (h.put ht) hrest
    rwa [ht.config] at hrun

theorem Tracks.settles (h : Tracks s w) (hs : Settles s s') : Tracks s' w where
  stored := fun id => by
    rw [hs.config]
    rcases hs.lsm id with hl | ⟨r, hc, hl⟩
    · rw [hl]
      exact h.stored id
    · rw [hl, h.cached id r hc]
      exact congrArg some (version_wire _ r)
  cached := fun id r hc => by
    rw [hs.config]
    obtain ⟨r₀, hc₀, hv⟩ := hs.cache id r hc
    rw [version_congr hv]
    exact h.cached id r₀ hc₀

/-- The versions after the writes are the last of them. -/
theorem after_cases (wire : Wire F) (ws : List (UInt64 × MemoryRecord F)) (w : UInt64 → Option (MemoryRecord F))
    (id : UInt64) :
    (∃ r, (id, r) ∈ ws ∧ after wire w ws id = some (version wire r)) ∨
      (∀ r, (id, r) ∉ ws) ∧ after wire w ws id = w id := by
  induction ws using List.reverseRecOn with
  | nil => exact .inr ⟨fun _ => List.not_mem_nil, rfl⟩
  | append_singleton ws x ih =>
    have hafter : after wire w (ws ++ [x]) id =
        Function.update (after wire w ws) x.1 (some (version wire x.2)) id := by
      simp [after]
    rw [hafter]
    by_cases he : id = x.1
    · subst he
      exact .inl ⟨x.2, by simp, by simp⟩
    · rw [Function.update_of_ne he]
      rcases ih with ⟨r, hr, ha⟩ | ⟨hr, ha⟩
      · exact .inl ⟨r, List.mem_append_left _ hr, ha⟩
      · refine .inr ⟨fun r hm => ?_, ha⟩
        rcases List.mem_append.mp hm with hm | hm
        · exact hr r hm
        · exact he (congrArg Prod.fst (List.mem_singleton.mp hm))

end Tracks

theorem Tracks.exec {F : Type} [Floats F] {s : MemoryStore F} {w : UInt64 → Option (MemoryRecord F)} (h : Tracks s w)
    (op : Op F) : Tracks (s.exec op) (after s.config.wire w (s.wrote op)) := by
  obtain ⟨s₁, hp, hs⟩ := s.exec_writes op
  exact (h.puts hp).settles hs

namespace MemoryStore

variable {F : Type}

/-- The version of a record that the store shows. -/
def shown (s : MemoryStore F) (id : UInt64) : Option (MemoryRecord F) := (s.load id).map (version s.config.wire)

/-- A record that is stored has been serialized. -/
def Wired (s : MemoryStore F) : Prop := ∀ id r, s.lsm id = some r → r.wire s.config.wire = r

theorem Wired.puts {s s' : MemoryStore F} (hs : s.Wired) {ws : List (UInt64 × MemoryRecord F)} (h : Puts s ws s') :
    s'.Wired := by
  induction ws generalizing s with
  | nil =>
    intro id r hr
    rw [h.1]
    rw [h.2.1] at hr
    exact hs id r hr
  | cons x ws ih =>
    obtain ⟨t, ht, hrest⟩ := h
    refine ih (fun id r hr => ?_) hrest
    rw [ht.config]
    rw [ht.lsm, Function.update_apply] at hr
    split at hr
    · cases hr
      exact MemoryRecord.wire_wire _ _
    · exact hs id r hr

theorem Wired.settles {s s' : MemoryStore F} (hs : s.Wired) (h : Settles s s') : s'.Wired := by
  intro id r hr
  rw [h.config]
  rcases h.lsm id with hl | ⟨r₀, -, hl⟩
  · rw [hl] at hr
    exact hs id r hr
  · rw [hl] at hr
    cases hr
    exact MemoryRecord.wire_wire _ _

/-- The cached records are the stored ones, as far as versions tell. -/
structure Coherent (s : MemoryStore F) : Prop extends Tracks s s.shown where
  wired : s.Wired

theorem Coherent.of_tracks {s : MemoryStore F} {w : UInt64 → Option (MemoryRecord F)} (h : Tracks s w) (hw : s.Wired) :
    s.Coherent := by
  have hs : s.shown = w := funext h.load
  refine ⟨?_, hw⟩
  rw [hs]
  exact h

theorem coherent_new (c : Config F) : (new c).Coherent := by
  refine .of_tracks (.new c) fun id r h => ?_
  have hnone : none = some r := h
  cases hnone

theorem config_exec [Floats F] (s : MemoryStore F) (op : Op F) : (s.exec op).config = s.config := by
  obtain ⟨s₁, hp, hs⟩ := s.exec_writes op
  rw [hs.config, hp.config]

theorem Wired.exec [Floats F] {s : MemoryStore F} (h : s.Wired) (op : Op F) : (s.exec op).Wired := by
  obtain ⟨s₁, hp, hs⟩ := s.exec_writes op
  exact (h.puts hp).settles hs

theorem Coherent.exec [Floats F] {s : MemoryStore F} (h : s.Coherent) (op : Op F) : (s.exec op).Coherent :=
  .of_tracks (h.toTracks.exec op) (h.wired.exec op)

/-- What a coherent store shows after a call. -/
theorem Coherent.shown_exec [Floats F] {s : MemoryStore F} (h : s.Coherent) (op : Op F) :
    (s.exec op).shown = after s.config.wire s.shown (s.wrote op) :=
  funext (h.toTracks.exec op).load

/-- A call leaves the other records as they are shown. -/
theorem Coherent.shown_exec_other [Floats F] {s : MemoryStore F} (h : s.Coherent) {op : Op F} {id : UInt64}
    (hn : ¬ s.Names op id) : (s.exec op).shown id = s.shown id := by
  rw [h.shown_exec op]
  rcases after_cases s.config.wire (s.wrote op) s.shown id with ⟨r, hr, -⟩ | ⟨-, ha⟩
  · exact absurd (target_of_wrote hr) hn
  · exact ha

end MemoryStore

end Memory
end Amind
