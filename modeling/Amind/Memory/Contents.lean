/-
# Properties of every copy of every record

A record has a stored copy and maybe a cached one. `Everywhere P s` says that
each of them has the property `P`. What every call writes has it, so every run
keeps it, if it does not depend on what reading changes and holds of what comes
back of a record that has it (`Respects`).

A call brings a content or keeps that of the record it changes
(`content_of_wrote`); opening a store caches live records only.
-/
import Amind.Memory.Durable

namespace Amind
namespace Memory

open Amind.Core Amind.Vector

/-- The content a call brings. -/
def Op.content {F : Type} : Op F → Option Text
  | .fastStore r _ _ => some r.content
  | .update _ c _ _ _ => some c
  | .updateInPlace _ c => some c
  | _ => none

/-- The property does not depend on what reading changes, and holds of what
comes back. -/
structure Respects {F : Type} (w : Wire F) (P : UInt64 → MemoryRecord F → Prop) : Prop where
  version : ∀ id r r', version .whole r = version .whole r' → P id r → P id r'
  wire : ∀ id r, P id r → P id (r.wire w)

/-- Every copy of every record has the property. -/
structure Everywhere {F : Type} (P : UInt64 → MemoryRecord F → Prop) (s : MemoryStore F) : Prop where
  stored : ∀ id r, s.lsm id = some r → P id r
  cached : ∀ id r, s.cache.lookup id = some r → P id r

section Everywhere

variable {F : Type} {P : UInt64 → MemoryRecord F → Prop} {s s' : MemoryStore F}

theorem everywhere_new (c : Config F) : Everywhere P (MemoryStore.new c) where
  stored := fun id r h => by
    have h' : none = some r := h
    cases h'
  cached := fun id r h => by
    have hempty : (MemoryStore.new c).cache.lookup id = none := AList.lookup_empty id
    rw [hempty] at h
    cases h

theorem Everywhere.load (h : Everywhere P s) {id : UInt64} {r : MemoryRecord F} (hr : s.load id = some r) : P id r := by
  cases hc : s.cache.lookup id with
  | some r' =>
    rw [MemoryStore.load_cached hc] at hr
    cases hr
    exact h.cached id _ hc
  | none =>
    rw [MemoryStore.load_stored hc] at hr
    exact h.stored id r hr

theorem Everywhere.puts (h : Everywhere P s) {ws : List (UInt64 × MemoryRecord F)} (hp : Puts s ws s')
    (hr : Respects s.config.wire P) (hw : ∀ id r, (id, r) ∈ ws → P id r) : Everywhere P s' := by
  induction ws generalizing s with
  | nil =>
    obtain ⟨-, hlsm, hcache⟩ := hp
    exact ⟨by rw [hlsm]; exact h.stored, by rw [hcache]; exact h.cached⟩
  | cons w ws ih =>
    obtain ⟨t, ht, hp⟩ := hp
    have hP : P w.1 w.2 := hw w.1 w.2 List.mem_cons_self
    refine ih ⟨fun id r hl => ?_, fun id r hc => ?_⟩ hp (by rw [ht.config]; exact hr)
      fun id r hm => hw id r (List.mem_cons_of_mem _ hm)
    · rw [ht.lsm, Function.update_apply] at hl
      split at hl
      · rename_i he
        cases hl
        rw [he]
        exact hr.wire _ _ hP
      · exact h.stored id r hl
    · by_cases he : id = w.1
      · rw [he] at hc ⊢
        rcases ht.self with hs | hs
        · rw [hs] at hc
          cases hc
          exact hP
        · rw [hs] at hc
          cases hc
      · rw [ht.other id he] at hc
        exact h.cached id r hc

theorem Everywhere.settles (h : Everywhere P s) (hs : Settles s s') (hr : Respects s.config.wire P) :
    Everywhere P s' where
  stored := fun id r hl => by
    rcases hs.lsm id with he | ⟨r₀, hc, he⟩
    · rw [he] at hl
      exact h.stored id r hl
    · rw [he] at hl
      cases hl
      exact hr.wire id r₀ (h.cached id r₀ hc)
  cached := fun id r hc => by
    obtain ⟨r₀, hc₀, hv⟩ := hs.cache id r hc
    exact hr.version id r₀ r hv.symm (h.cached id r₀ hc₀)

variable [Floats F]

theorem Everywhere.exec (h : Everywhere P s) (hr : Respects s.config.wire P) {op : Op F}
    (hw : ∀ id r, (id, r) ∈ s.wrote op → P id r) : Everywhere P (s.exec op) := by
  obtain ⟨s₁, hputs, hsettles⟩ := s.exec_writes op
  refine (h.puts hputs hr hw).settles hsettles ?_
  rw [hputs.config]
  exact hr

theorem Everywhere.get (h : Everywhere P s) (hr : Respects s.config.wire P) (i : UInt64) (now : UInt32) :
    Everywhere P (s.get i now).1 := by
  rcases get_cases s i now with he | ⟨q, hmiss, hq, he⟩
  · rw [he]
    exact h.exec hr fun _ _ hm => absurd hm List.not_mem_nil
  · rw [he]
    refine ⟨h.stored, fun id r hc => ?_⟩
    by_cases hi : id = i
    · subst hi
      rw [Race.getInsert_missing hmiss] at hc
      cases hc
      exact hr.version id q _ (MemoryStore.version_tryPromote _ s.config (MemoryStore.touch q now)).symm (h.stored id q hq)
    · rw [Race.getInsert_other hi] at hc
      exact h.cached id r hc

namespace Opened

variable {x : Opened F}

/-- What a call writes has the property. -/
def WritesAll (P : UInt64 → MemoryRecord F → Prop) (x : Opened F) : Act F → Prop
  | .turn (.call op _) => ∀ id r, (id, r) ∈ x.store.wrote op → P id r
  | _ => True

theorem everywhere_act (hx : x.Sound) (h : Everywhere P x.store) (hr : Respects x.store.config.wire P) {a : Act F}
    (ha : x.WritesAll P a) : Everywhere P (x.act a).store := by
  cases a with
  | get i now => exact h.get hr i now
  | turn t =>
    cases t with
    | call op level => exact h.exec hr ha
    | reopen file keys levels =>
      have hload := hx.toMirrors.close.init file keys levels
      have hflush : Everywhere P x.store.flush := h.settles (MemoryStore.settles_flushDirtyRecords x.store) hr
      have hlsm : (x.close.init file keys levels).store.lsm = x.store.flush.lsm := hload.lsm
      show Everywhere P (x.close.init file keys levels).store
      refine ⟨by rw [hlsm]; exact hflush.stored, fun id r hc => ?_⟩
      have hl := hload.fromDisk id r hc
      rw [hlsm] at hl
      exact hflush.stored id r hl

omit [Floats F] in
theorem alive_warm {s : MemoryStore F} (h : ∀ id r, s.cache.lookup id = some r → r.isAlive = true) (i : UInt64) :
    ∀ id r, (s.warm i).cache.lookup id = some r → r.isAlive = true := by
  unfold MemoryStore.warm
  split
  · exact h
  · split
    · split
      · rename_i r₀ _ halive
        intro id r hc
        rw [MemoryStore.cache_cachePut] at hc
        by_cases he : id = i
        · subst he
          rw [AList.lookup_insert] at hc
          cases hc
          exact halive
        · rw [AList.lookup_insert_ne he] at hc
          exact h id r hc
      · exact h
    · exact h

theorem alive_reconcile (h : ∀ id r, x.store.cache.lookup id = some r → r.isAlive = true) (levels : UInt64 → ℕ)
    (i : UInt64) : ∀ id r, (x.reconcile levels i).store.cache.lookup id = some r → r.isAlive = true := by
  unfold Opened.reconcile
  split
  · exact h
  · split
    · rename_i r₀ _
      split
      · exact h
      · rename_i hskip
        have halive : r₀.isAlive = true := by
          by_contra ha
          exact hskip (.inl (Bool.eq_false_iff.mpr ha))
        intro id r hc
        rw [MemoryStore.cache_cachePut, MemoryStore.cache_hnswInsert] at hc
        by_cases he : id = i
        · subst he
          rw [AList.lookup_insert] at hc
          cases hc
          exact halive
        · rw [AList.lookup_insert_ne he] at hc
          exact h id r hc
    · exact h

/-- **Opening a store caches live records only.** -/
theorem alive_of_reopen {file : Option ℕ} {keys : List UInt64} {levels : UInt64 → ℕ} {id : UInt64} {r : MemoryRecord F}
    (hc : (x.act (.turn (.reopen file keys levels))).store.cache.lookup id = some r) : r.isAlive = true := by
  have hempty : ∀ id r, (x.close.onDisk file).store.cache.lookup id = some r → r.isAlive = true := by
    intro id r h
    have hnone : (x.close.onDisk file).store.cache.lookup id = none := AList.lookup_empty id
    rw [hnone] at h
    cases h
  have hrec : ∀ id r, (keys.foldl (Opened.reconcile levels) (x.close.onDisk file)).store.cache.lookup id = some r →
      r.isAlive = true :=
    List.foldlRecOn (motive := fun y : Opened F => ∀ id r, y.store.cache.lookup id = some r → r.isAlive = true) keys _
      hempty fun _ h i _ => alive_reconcile h levels i
  exact List.foldlRecOn (motive := fun s : MemoryStore F => ∀ id r, s.cache.lookup id = some r → r.isAlive = true) keys
    MemoryStore.warm hrec (fun _ h i _ => alive_warm h i) id r hc

end Opened

/-- A call brings the content of a record it writes, or leaves that of the
record it found there. It leaves no removed record alive. -/
theorem content_of_wrote {op : Op F} {id : UInt64} {r : MemoryRecord F} (h : (id, r) ∈ s.wrote op) :
    op.content = some r.content ∨
      ∃ r₀, s.load id = some r₀ ∧ r.content = r₀.content ∧ (r₀.Tombstoned → r.Tombstoned) := by
  cases MemoryStore.wrote_inv h with
  | stored r' clock now hid =>
    have hcontent := congrArg Body.content (Opened.toBody_prepared r' id now).1
    exact .inl (congrArg some hcontent.symm)
  | versioned c v clock now h₀ => exact .inr ⟨_, h₀, rfl, MemoryRecord.Tombstoned.markVersioned⟩
  | replacing h₀ hnew =>
    refine .inl (congrArg some ?_)
    unfold MemoryStore.newVersion
    dsimp only
    split <;> rfl
  | @removed _ r₀ h₀ => exact .inr ⟨r₀, h₀, rfl, fun _ => MemoryRecord.tombstoned_markTombstone r₀⟩
  | archived h₀ => exact .inr ⟨_, h₀, rfl, fun ht => ht⟩
  | embedded v h₀ => exact .inr ⟨_, h₀, rfl, fun ht => ht.flag rfl⟩
  | boosted delta h₀ => exact .inr ⟨_, h₀, rfl, fun ht => ht⟩
  | rewritten c h₀ => exact .inl rfl

end Everywhere

end Memory
end Amind
