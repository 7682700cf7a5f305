/-
# What a stored record keeps

A record that was stored is cached whole, but the storage engine has only what
comes back of it (`Core.clip`): fields of more than 65535 bytes are cut, and
metadata whose text is longer are lost. The difference shows when the cached
record is given up or the store is opened again.

`durable_iff` says which records keep their content, user, agent, scope and
user metadata through every later run: those of which each field, and the text
of the metadata if the user gave any, fits (`Fits`). The storage engine keeps its
answers over these runs.
-/
import Amind.Core.RecordCodec
import Amind.Memory.GetRace
import Amind.Memory.Restart

namespace Amind
namespace Memory

open Amind.Core Amind.Vector
open Core.WireFormat (MAX_SIZE)
open Run (run Along Paused pausing Still OnOps)

/-- A turn, or a `get`, which may have to read the record from the storage
engine. -/
inductive Act (F : Type)
  | turn (t : Turn F)
  | get (id : UInt64) (now : UInt32)

namespace MemoryStore

variable {F : Type} [Floats F]

/-- `get` with no other thread in between. -/
def get (s : MemoryStore F) (id : UInt64) (now : UInt32) : MemoryStore F × Except NotFound (MemoryRecord F) :=
  match s.getCached id now with
  | some (s', r) => (s', .ok r)
  | none =>
    match s.getRead id now with
    | some r => ((s.getInsert id r now).1, .ok (s.getInsert id r now).2)
    | none => (s, .error (notFound id))

end MemoryStore

namespace Opened

variable {F : Type} [Floats F]

def act (x : Opened F) : Act F → Opened F
  | .turn t => x.step t
  | .get id now => { x with store := (x.store.get id now).1 }

/-- The call does not name the record. -/
def Leaves (id : UInt64) (x : Opened F) : Act F → Prop
  | .turn (.call op _) => ¬ x.store.Names op id
  | .turn (.reopen _ _ _) => True
  | .get _ _ => True

instance (id : UInt64) (x : Opened F) : ∀ a, Decidable (x.Leaves id a)
  | .turn (.call op _) => inferInstanceAs (Decidable (¬ x.store.Names op id))
  | .turn (.reopen _ _ _) => inferInstanceAs (Decidable True)
  | .get _ _ => inferInstanceAs (Decidable True)

end Opened

/-! ### Which fields come back -/

section Fits

variable {F D : Type}

/-- The fields a stored record is promised to keep. -/
structure SameFields (r r' : MemoryRecord F) : Prop where
  content : r.content = r'.content
  userId : r.userId = r'.userId
  agentId : r.agentId = r'.agentId
  scope : r.scope = r'.scope
  userMetadata : r.userMetadata = r'.userMetadata

/-- Each of the fields fits its 16-bit length. The user's metadata are written
with the other metadata, and read only if all before them could be. -/
structure Fits (nf : Numbers F D) (r : MemoryRecord F) : Prop where
  content : r.content.length ≤ MAX_SIZE
  userId : r.userId.length ≤ MAX_SIZE
  agentId : r.agentId.length ≤ MAX_SIZE
  userMetadata : r.userMetadata = .empty ∨
    (r.metadata nf).length ≤ MAX_SIZE ∧ nf.holds r.marginalValue = true ∧ nf.holds r.forgetScore = true

theorem SameFields.of_toBody {p r : MemoryRecord F} (h : p.toBody = r.toBody) (hs : p.scope = r.scope) :
    SameFields p r where
  content := congrArg Body.content h
  userId := congrArg Body.userId h
  agentId := congrArg Body.agentId h
  scope := hs
  userMetadata := congrArg Body.userMetadata h

theorem SameFields.symm {r r' : MemoryRecord F} (h : SameFields r r') : SameFields r' r :=
  ⟨h.content.symm, h.userId.symm, h.agentId.symm, h.scope.symm, h.userMetadata.symm⟩

theorem SameFields.trans {r r' r'' : MemoryRecord F} (h : SameFields r r') (h' : SameFields r' r'') :
    SameFields r r'' :=
  ⟨h.content.trans h'.content, h.userId.trans h'.userId, h.agentId.trans h'.agentId, h.scope.trans h'.scope,
    h.userMetadata.trans h'.userMetadata⟩

/-- What reading changes is none of the fields. -/
theorem SameFields.of_version {p r : MemoryRecord F} (hv : version .whole p = version .whole r) : SameFields p r where
  content := congrArg (fun r => r.content) hv
  userId := congrArg (fun r => r.userId) hv
  agentId := congrArg (fun r => r.agentId) hv
  scope := congrArg (fun r => r.scope) hv
  userMetadata := congrArg (fun r => r.userMetadata) hv

theorem take_eq_iff {s : Text} : s.take MAX_SIZE = s ↔ s.length ≤ MAX_SIZE := List.take_eq_self_iff s

variable [Zero F] {nf : Numbers F D}

theorem clip_userMetadata (hnf : nf.Lawful) (b : Body F) : (clip nf b).userMetadata =
    if (b.metadata nf).length ≤ MAX_SIZE ∧ nf.holds b.marginalValue = true ∧ nf.holds b.forgetScore = true then
      b.userMetadata
    else .empty := by
  rw [clip_eq hnf]
  by_cases hlen : (b.metadata nf).length ≤ MAX_SIZE
  · rw [if_pos hlen, kept]
    by_cases hm : nf.holds b.marginalValue = true
    · by_cases hf : nf.holds b.forgetScore = true
      · rw [if_pos hm, if_pos hf, if_pos ⟨hlen, hm, hf⟩]
      · rw [if_pos hm, if_neg hf, if_neg (fun h => hf h.2.2)]
        rfl
    · rw [if_neg hm, if_neg (fun h => hm h.2.1)]
      rfl
  · rw [if_neg hlen, if_neg (fun h => hlen h.1)]
    rfl

/-- The other fields are cut, whatever the metadata are. -/
theorem clip_fields (hnf : nf.Lawful) (b : Body F) : (clip nf b).content = b.content.take MAX_SIZE ∧
    (clip nf b).userId = b.userId.take MAX_SIZE ∧ (clip nf b).agentId = b.agentId.take MAX_SIZE := by
  rw [clip_eq hnf]
  split
  · unfold kept
    split
    · split <;> exact ⟨rfl, rfl, rfl⟩
    · exact ⟨rfl, rfl, rfl⟩
  · exact ⟨rfl, rfl, rfl⟩

theorem sameFields_wire_iff (hnf : nf.Lawful) (r : MemoryRecord F) :
    SameFields (r.wire (wireOf nf hnf)) r ↔ Fits nf r := by
  obtain ⟨hcontent, huser, hagent⟩ := clip_fields hnf r.toBody
  have hmeta := clip_userMetadata hnf r.toBody
  constructor
  · intro h
    refine ⟨take_eq_iff.mp (hcontent.symm.trans h.content), take_eq_iff.mp (huser.symm.trans h.userId),
      take_eq_iff.mp (hagent.symm.trans h.agentId), ?_⟩
    have hsame : (clip nf r.toBody).userMetadata = r.userMetadata := h.userMetadata
    rw [hmeta] at hsame
    split at hsame
    · rename_i hfits
      exact .inr hfits
    · exact .inl hsame.symm
  · intro h
    refine ⟨hcontent.trans (take_eq_iff.mpr h.content), huser.trans (take_eq_iff.mpr h.userId),
      hagent.trans (take_eq_iff.mpr h.agentId), rfl, hmeta.trans ?_⟩
    rcases h.userMetadata with he | hfits
    · rw [he]
      exact ite_self _
    · exact if_pos hfits

end Fits

/-! ### Runs -/

section Runs

variable {F : Type}

/-- The record of an id is `r` whole or as it comes back, and the stored one is
the latter. -/
structure Copies (r : MemoryRecord F) (id : UInt64) (s : MemoryStore F) : Prop where
  stored : ∃ p, s.lsm id = some p ∧ version .whole p = version .whole (r.wire s.config.wire)
  cached : ∀ p, s.cache.lookup id = some p →
    version .whole p = version .whole r ∨ version .whole p = version .whole (r.wire s.config.wire)

variable {r : MemoryRecord F} {id : UInt64} {s s' : MemoryStore F}

theorem version_wire_congr {p r : MemoryRecord F} {w : Wire F} (h : version .whole p = version .whole r) :
    version .whole (p.wire w) = version .whole (r.wire w) := by
  have hw : ∀ r : MemoryRecord F, version .whole (r.wire w) = (version .whole r).wire w := fun _ => rfl
  rw [hw, hw, h]

/-- Either copy is written back as the one that comes back. -/
theorem Copies.wire_cached (h : Copies r id s) {p : MemoryRecord F} (hp : s.cache.lookup id = some p) :
    version .whole (p.wire s.config.wire) = version .whole (r.wire s.config.wire) := by
  rcases h.cached p hp with hv | hv
  · exact version_wire_congr hv
  · rw [version_wire_congr hv, MemoryRecord.wire_wire]

theorem Copies.settles (h : Copies r id s) (hs : Settles s s') : Copies r id s' where
  stored := by
    rw [hs.config]
    rcases hs.lsm id with hl | ⟨p, hp, hl⟩
    · rw [hl]
      exact h.stored
    · exact ⟨_, hl, h.wire_cached hp⟩
  cached := fun p hp => by
    rw [hs.config]
    obtain ⟨p₀, hp₀, hv⟩ := hs.cache id p hp
    rw [hv]
    exact h.cached p₀ hp₀

/-- Writing other records leaves it alone. -/
theorem Copies.puts (h : Copies r id s) {ws : List (UInt64 × MemoryRecord F)} (hp : Puts s ws s')
    (hw : ∀ r', (id, r') ∉ ws) : Copies r id s' := by
  induction ws generalizing s with
  | nil =>
    obtain ⟨hconfig, hlsm, hcache⟩ := hp
    exact ⟨by rw [hconfig, hlsm]; exact h.stored, by rw [hconfig, hcache]; exact h.cached⟩
  | cons w ws ih =>
    obtain ⟨t, ht, hp⟩ := hp
    have hne : id ≠ w.1 := fun he => hw w.2 (he ▸ List.mem_cons_self)
    refine ih ⟨?_, ?_⟩ hp fun r' hr' => hw r' (List.mem_cons_of_mem _ hr')
    · rw [ht.lsm, ht.config, Function.update_of_ne hne]
      exact h.stored
    · rw [ht.config, ht.other id hne]
      exact h.cached

/-- The record that `peek` shows has the fields of one of the copies. -/
theorem Copies.peek (h : Copies r id s) : ∃ p, s.peek id = .ok p ∧
    (version .whole p = version .whole r ∨ version .whole p = version .whole (r.wire s.config.wire)) := by
  unfold MemoryStore.peek
  cases hc : s.cache.lookup id with
  | some p =>
    rw [MemoryStore.load_cached hc]
    exact ⟨p, rfl, h.cached p hc⟩
  | none =>
    obtain ⟨p, hp, hv⟩ := h.stored
    rw [MemoryStore.load_stored hc, hp]
    exact ⟨p, rfl, .inr hv⟩

/-- A record that was just written. -/
theorem copies_of_put (h : Put s s' id r) : Copies r id s' where
  stored := by
    rw [h.lsm, h.config, Function.update_self]
    exact ⟨_, rfl, rfl⟩
  cached := fun p hp => by
    rcases h.self with hc | hc
    · rw [hc] at hp
      cases hp
      exact .inl rfl
    · rw [hc] at hp
      cases hp

variable [Floats F]

theorem Copies.exec (h : Copies r id s) {op : Op F} (hn : ¬ s.Names op id) : Copies r id (s.exec op) := by
  obtain ⟨s₁, hputs, hsettles⟩ := s.exec_writes op
  exact (h.puts hputs fun r' hr' => hn (MemoryStore.target_of_wrote hr')).settles hsettles

/-- `get` of a cached record counts it, maybe moves it up, and answers with it. -/
theorem get_cached {i : UInt64} {q : MemoryRecord F} (h : s.cache.lookup i = some q) (now : UInt32) : s.get i now =
    ((s.cachePut i (MemoryStore.tryPromote s.config (MemoryStore.touch q now))).markDirty i,
      .ok (MemoryStore.tryPromote s.config (MemoryStore.touch q now))) := by
  have hget : s.getCached i now =
    some ((s.cachePut i (MemoryStore.tryPromote s.config (MemoryStore.touch q now))).markDirty i,
      MemoryStore.tryPromote s.config (MemoryStore.touch q now)) := by
    rw [MemoryStore.getCached, h]
    rfl
  rw [MemoryStore.get, hget]

/-- `get` of one that is only stored caches it besides. -/
theorem get_stored {i : UInt64} {q : MemoryRecord F} (h : s.cache.lookup i = none) (hq : s.lsm i = some q)
    (now : UInt32) : s.get i now =
    ((s.getInsert i (MemoryStore.touch q now) now).1,
      .ok (MemoryStore.tryPromote s.config (MemoryStore.touch q now))) := by
  have hget : s.getCached i now = none := by
    rw [MemoryStore.getCached, h]
    rfl
  rw [MemoryStore.get, hget, MemoryStore.getRead, hq]
  show (_, Except.ok (s.getInsert i (MemoryStore.touch q now) now).2) = _
  rw [MemoryStore.getInsert, h]

/-- `get` of no record changes nothing. -/
theorem get_missing {i : UInt64} (h : s.load i = none) (now : UInt32) :
    s.get i now = (s, .error (MemoryStore.notFound i)) := by
  obtain ⟨hc, hl⟩ := Option.or_eq_none_iff.mp h
  have hget : s.getCached i now = none := by
    rw [MemoryStore.getCached, hc]
    rfl
  rw [MemoryStore.get, hget, MemoryStore.getRead, hl]
  rfl

/-- What `get` does: a cached record is counted, a stored one is cached. -/
theorem get_cases (s : MemoryStore F) (i : UInt64) (now : UInt32) :
    (s.get i now).1 = s.exec (.getCached i now) ∨
      ∃ q, s.cache.lookup i = none ∧ s.lsm i = some q ∧
        (s.get i now).1 = (s.getInsert i (MemoryStore.touch q now) now).1 := by
  have hexec : s.exec (.getCached i now) = ((s.getCached i now).map (·.1)).getD s := rfl
  cases hc : s.cache.lookup i with
  | some q =>
    left
    rw [get_cached hc, hexec, MemoryStore.getCached, hc]
    rfl
  | none =>
    cases hl : s.lsm i with
    | some q => exact .inr ⟨q, rfl, rfl, by rw [get_stored hc hl]⟩
    | none =>
      left
      rw [get_missing (by rw [MemoryStore.load_stored hc, hl]), hexec, MemoryStore.getCached, hc]
      rfl

/-- The record that was looked up is counted and maybe moved up, the others are
as they were. -/
theorem load_get (s : MemoryStore F) (i id : UInt64) (now : UInt32) : (s.get i now).1.load id =
    if id = i then (s.load i).map fun r =>
      MemoryStore.tryPromote s.config (MemoryStore.touch r now) else s.load id := by
  cases hc : s.cache.lookup i with
  | some q =>
    rw [get_cached hc, MemoryStore.load_cached hc]
    show ((s.cache.insert i _).lookup id).or (s.lsm id) = _
    by_cases he : id = i
    · rw [if_pos he, he, AList.lookup_insert]
      rfl
    · rw [if_neg he, AList.lookup_insert_ne he]
      rfl
  | none =>
    cases hl : s.lsm i with
    | some q =>
      rw [get_stored hc hl, MemoryStore.load_stored hc, hl]
      show ((s.getInsert i (MemoryStore.touch q now) now).1.cache.lookup id).or (s.lsm id) = _
      by_cases he : id = i
      · rw [if_pos he, he, Race.getInsert_missing hc]
        rfl
      · rw [if_neg he, Race.getInsert_other he]
        rfl
    | none =>
      have hload : s.load i = none := by rw [MemoryStore.load_stored hc, hl]
      rw [get_missing hload, hload]
      split
      · rename_i he
        rw [he, hload]
        rfl
      · rfl

/-- It answers with the record as it is then. -/
theorem get_snd (s : MemoryStore F) (i : UInt64) (now : UInt32) : (s.get i now).2 =
    match s.load i with
    | some r => .ok (MemoryStore.tryPromote s.config (MemoryStore.touch r now))
    | none => .error (MemoryStore.notFound i) := by
  cases hc : s.cache.lookup i with
  | some q => rw [get_cached hc, MemoryStore.load_cached hc]
  | none =>
    cases hl : s.lsm i with
    | some q => rw [get_stored hc hl, MemoryStore.load_stored hc, hl]
    | none => rw [get_missing (by rw [MemoryStore.load_stored hc, hl]), MemoryStore.load_stored hc, hl]

theorem Copies.get (h : Copies r id s) (i : UInt64) (now : UInt32) : Copies r id (s.get i now).1 := by
  rcases get_cases s i now with he | ⟨q, hmiss, hq, he⟩
  · rw [he]
    exact h.exec (by rintro (h | h) <;> cases h)
  · rw [he]
    refine ⟨h.stored, fun p hp => ?_⟩
    by_cases hi : id = i
    · subst hi
      rw [Race.getInsert_missing hmiss] at hp
      obtain ⟨p₀, hp₀, hv⟩ := h.stored
      cases hp
      refine .inr ?_
      rw [MemoryStore.version_tryPromote, Option.some.inj (hq.symm.trans hp₀)]
      exact hv
    · rw [Race.getInsert_other hi] at hp
      exact h.cached p hp

theorem coherent_get (h : s.Coherent) (i : UInt64) (now : UInt32) : (s.get i now).1.Coherent := by
  rcases get_cases s i now with he | ⟨q, hmiss, hq, he⟩
  · rw [he]
    exact h.exec _
  · rw [he]
    refine .of_tracks (w := s.shown) ⟨h.stored, fun j p hp => ?_⟩ h.wired
    by_cases hi : j = i
    · subst hi
      rw [Race.getInsert_missing hmiss] at hp
      cases hp
      rw [MemoryStore.version_tryPromote, ← h.stored j, hq]
      rfl
    · rw [Race.getInsert_other hi] at hp
      exact h.cached j p hp

theorem hnsw_get (s : MemoryStore F) (i : UInt64) (now : UInt32) : (s.get i now).1.hnsw = s.hnsw := by
  rcases get_cases s i now with he | ⟨q, -, -, he⟩
  · rw [he]
    show (((s.getCached i now).map (·.1)).getD s).hnsw = s.hnsw
    unfold MemoryStore.getCached
    cases s.cache.lookup i <;> rfl
  · rw [he]
    rfl

theorem config_get (s : MemoryStore F) (i : UInt64) (now : UInt32) : (s.get i now).1.config = s.config := by
  rcases get_cases s i now with he | ⟨q, -, -, he⟩
  · rw [he, MemoryStore.config_exec]
  · rw [he]
    rfl

/-- Reading a record changes no version that is shown. -/
theorem shown_get (s : MemoryStore F) (i : UInt64) (now : UInt32) (id : UInt64) :
    (s.get i now).1.shown id = s.shown id := by
  rw [MemoryStore.shown, MemoryStore.shown, load_get, config_get]
  by_cases he : id = i
  · rw [if_pos he, he, Option.map_map]
    refine congrArg (fun f => (s.load i).map f) (funext fun r => ?_)
    exact MemoryStore.version_tryPromote _ _ _
  · rw [if_neg he]

namespace Opened

variable {x : Opened F}

theorem Sound.act (hx : x.Sound) : ∀ a : Act F, (x.act a).Sound
  | .turn t => hx.step t
  | .get i now =>
    { dimension := by
        show x.index.config.dimension = (x.store.get i now).1.config.embeddingDim
        rw [config_get]
        exact hx.dimension
      rooted := hx.rooted
      contains := fun j => by
        show x.index.contains j = true ↔ (x.store.get i now).1.hnsw j = true
        rw [hnsw_get]
        exact hx.contains j
      files := hx.files
      coherent := coherent_get hx.coherent i now }

/-- Through every act that does not name it. -/
theorem copies_act (hx : x.Sound) (h : Copies r id x.store) {a : Act F} (ha : x.Leaves id a) :
    Copies r id (x.act a).store := by
  cases a with
  | get i now => exact h.get i now
  | turn t =>
    cases t with
    | call op level => exact h.exec ha
    | reopen file keys levels =>
      have hload := hx.toMirrors.close.init file keys levels
      have hflush : Copies r id x.store.flush := h.settles (MemoryStore.settles_flushDirtyRecords x.store)
      have hconfig : (x.close.init file keys levels).store.config = x.store.flush.config := hload.config
      have hlsm : (x.close.init file keys levels).store.lsm = x.store.flush.lsm := hload.lsm
      show Copies r id (x.close.init file keys levels).store
      refine ⟨?_, fun p hp => ?_⟩
      · rw [hlsm, hconfig]
        exact hflush.stored
      · obtain ⟨q, hq, hv⟩ := hflush.stored
        rw [← hlsm, hload.fromDisk id p hp] at hq
        cases hq
        rw [hconfig]
        exact .inr hv

theorem config_act (hx : x.Sound) (a : Act F) : (x.act a).store.config = x.store.config := by
  cases a with
  | get i now => exact config_get x.store i now
  | turn t =>
    cases t with
    | call op level => exact x.store.config_exec op
    | reopen file keys levels =>
      exact (hx.toMirrors.close.init file keys levels).config.trans
        (MemoryStore.settles_flushDirtyRecords x.store).config

/-- A record that was stored is shown whole or as it comes back, whatever runs
after it without naming it. -/
theorem copies_run (hx : x.Sound) (h : Copies r id x.store) {after : List (Act F)}
    (ha : Along act (Leaves id) x after) :
    Copies r id (run act x after).store ∧ (run act x after).store.config = x.store.config := by
  have hinv := Run.run_inv act (I := fun _ y => y.Sound ∧ Copies r id y.store ∧ y.store.config = x.store.config)
    (C := Leaves id) (fun _ y a hy ha => ⟨hy.1.act a, copies_act hy.1 hy.2.1 ha, (config_act hy.1 a).trans hy.2.2⟩)
    after [] x ⟨hx, h, rfl⟩ ha
  exact hinv.2

/-- A call that writes one record leaves it in both places. -/
theorem copies_of_wrote {s : MemoryStore F} {op : Op F} {r : MemoryRecord F} (hw : s.wrote op = [(id, r)]) :
    Copies r id (s.exec op) := by
  obtain ⟨s₁, hputs, hsettles⟩ := s.exec_writes op
  rw [hw] at hputs
  obtain ⟨t, ht, hconfig, hlsm, hcache⟩ := hputs
  refine Copies.settles ?_ hsettles
  have ht := copies_of_put ht
  exact ⟨by rw [hconfig, hlsm]; exact ht.stored, by rw [hconfig, hcache]; exact ht.cached⟩

theorem copies_fastStore {s : MemoryStore F} {r : MemoryRecord F} {clock : List ℤ} {now : UInt32}
    (h : (s.fastStore r clock now).2 = .ok id) :
    Copies (MemoryStore.prepared { r with memoryId := id } now) id (s.exec (.fastStore r clock now)) := by
  refine copies_of_wrote ?_
  rw [MemoryStore.wrote, h]
  rfl

omit [Floats F] in
/-- Storing a record changes none of what is promised. -/
theorem toBody_prepared (r : MemoryRecord F) (id : UInt64) (now : UInt32) :
    (MemoryStore.prepared { r with memoryId := id } now).toBody = r.toBody ∧
      (MemoryStore.prepared { r with memoryId := id } now).scope = r.scope := by
  unfold MemoryStore.prepared
  dsimp only
  split <;> split <;> exact ⟨rfl, rfl⟩

theorem sound_run (c : Config F) (h : HNSWConfig F) (before : List (Act F)) :
    (run act (start c h) before).Sound ∧ (run act (start c h) before).store.config = c := by
  refine List.foldlRecOn (motive := fun x : Opened F => x.Sound ∧ x.store.config = c) before act
    ⟨sound_start c h, rfl⟩ ?_
  intro x hx a _
  exact ⟨hx.1.act a, (config_act hx.1 a).trans hx.2⟩

/-- After a restart that caches nothing the stored copy is shown. -/
theorem peek_reopen (hx : x.Sound) (h : Copies r id x.store) {p : MemoryRecord F}
    (hp : (x.act (.turn (.reopen none [] fun _ => 0))).store.peek id = .ok p) :
    version .whole p = version .whole (r.wire x.store.config.wire) := by
  have hcopies := copies_act hx h (a := .turn (.reopen none [] fun _ => 0)) trivial
  have hconfig := config_act hx (.turn (.reopen none [] fun _ => 0))
  obtain ⟨q, hq, hv⟩ := hcopies.stored
  have hnone : (x.act (.turn (.reopen none [] fun _ => 0))).store.cache.lookup id = none := AList.lookup_empty id
  rw [MemoryStore.peek, MemoryStore.load_stored hnone, hq] at hp
  cases hp
  rw [hv, hconfig]

end Opened

/-- In a run of acts a record that was stored keeps its content, user, agent,
scope and user metadata through every run that does not name it if and only if
each of them fits. -/
theorem durable_acts_iff {D : Type} {nf : Numbers F D} (hnf : nf.Lawful) (c : Config F) (h : HNSWConfig F)
    (before : List (Act F)) (r : MemoryRecord F) (clock : List ℤ) (now : UInt32) (level : ℕ) (id : UInt64)
    (hid : ((run Opened.act (.start { c with wire := wireOf nf hnf } h) before).store.fastStore r clock now).2 =
      .ok id) :
    (∀ after : List (Act F),
      Along Opened.act (Opened.Leaves id)
        (run Opened.act (.start { c with wire := wireOf nf hnf } h)
          (before ++ [.turn (.call (.fastStore r clock now) level)])) after →
      ∃ p, (run Opened.act (.start { c with wire := wireOf nf hnf } h)
        (before ++ .turn (.call (.fastStore r clock now) level) :: after)).store.peek id = .ok p ∧ SameFields p r) ↔
    Fits nf r := by
  obtain ⟨hx, hconfig⟩ := Opened.sound_run { c with wire := wireOf nf hnf } h before
  revert hid
  simp only [Run.run_append, Run.run_cons, Run.run_nil]
  generalize run Opened.act (Opened.start { c with wire := wireOf nf hnf } h) before = x at hx hconfig ⊢
  intro hid
  have hcopies : Copies (MemoryStore.prepared { r with memoryId := id } now) id
      (x.act (.turn (.call (.fastStore r clock now) level))).store := Opened.copies_fastStore hid
  have hsound : (x.act (.turn (.call (.fastStore r clock now) level))).Sound := hx.act _
  have hwire : (x.act (.turn (.call (.fastStore r clock now) level))).store.config.wire = wireOf nf hnf := by
    rw [Opened.config_act hx, hconfig]
  generalize x.act (.turn (.call (.fastStore r clock now) level)) = y at hcopies hsound hwire
  obtain ⟨hbody, hscope⟩ := Opened.toBody_prepared r id now
  generalize MemoryStore.prepared { r with memoryId := id } now = r' at hcopies hbody hscope
  have hsame : SameFields r' r := .of_toBody hbody hscope
  have hfits : SameFields (r'.wire (wireOf nf hnf)) r ↔ Fits nf r := by
    rw [← sameFields_wire_iff hnf r]
    have hwired : SameFields (r'.wire (wireOf nf hnf)) (r.wire (wireOf nf hnf)) :=
      .of_toBody (congrArg (clip nf) hbody) hscope
    exact ⟨hwired.symm.trans, hwired.trans⟩
  constructor
  · intro hall
    obtain ⟨p, hp, hpr⟩ := hall [.turn (.reopen none [] fun _ => 0)] ⟨trivial, trivial⟩
    have hv := Opened.peek_reopen hsound hcopies hp
    rw [hwire] at hv
    exact hfits.mp ((SameFields.of_version hv).symm.trans hpr)
  · intro hf after ha
    obtain ⟨hrun, hrunConfig⟩ := Opened.copies_run hsound hcopies ha
    obtain ⟨p, hp, hv⟩ := hrun.peek
    refine ⟨p, hp, ?_⟩
    rw [hrunConfig, hwire] at hv
    rcases hv with hv | hv
    · exact (SameFields.of_version hv).trans hsame
    · exact (SameFields.of_version hv).trans (hfits.mpr hf)

end Runs

/-! ### A store of one record -/

/-- Floats by their bits. Only zeros are stored below, so none is written as
text. -/
instance bitFloats : Floats UInt32 := ⟨inferInstance, inferInstance⟩

def bits : Numbers UInt32 Empty where
  toBits := id
  ofBits := id
  isZero x := x = 0 ∨ x = 0x80000000
  widen _ := none
  narrow := Empty.elim
  ofInt := UInt32.ofInt
  trunc := Empty.elim
  text := Json.integers

theorem lawful_bits : bits.Lawful where
  ofBits_toBits := fun _ => rfl
  isZero_zero := by decide
  narrow_widen := fun _ d => d.elim
  text := Json.lawful_integers

/-- A store that caches four records. -/
def fourCached : Config UInt32 := ⟨1, 3, 6, 10, 7, 4, wireOf bits lawful_bits⟩

def plain : HNSWConfig UInt32 := { dimension := 1, computeDistance := fun _ _ => 0 }

/-- A note of a user, with a role. -/
def note : MemoryRecord UInt32 :=
  { MemoryRecord.zero with
    memoryId := 1
    userId := Utf8.bytes "ann"
    agentId := Utf8.bytes "default"
    content := Utf8.bytes "likes tea"
    userMetadata :=
      ⟨[(⟨Utf8.bytes "role", by decide⟩, ⟨Utf8.bytes "user", (Core.Key.text .user).2⟩)],
        List.pairwise_singleton _ _⟩ }

theorem fits_note : Fits bits note where
  content := by decide
  userId := by decide
  agentId := by decide
  userMetadata := .inr (by decide)

/-- A flush, a restart that caches nothing and a `get`. -/
def noteKept : List (Act UInt32) := [.turn (.call .flush 0), .turn (.reopen none [] fun _ => 0), .get 1 6]

/-- A note of 65536 bytes. -/
def longNote : MemoryRecord UInt32 := { note with content := List.replicate 65536 65 }

/-- It is stored, and the store opened again. -/
def longNoteReopened : List (Act UInt32) :=
  [.turn (.call (.fastStore longNote [] 5) 0), .turn (.reopen none [] fun _ => 0)]

end Memory
end Amind
