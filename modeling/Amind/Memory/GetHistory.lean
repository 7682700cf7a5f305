/-
# The history of a memory

`getHistory` reads a record, and then its parent, and so on. An update makes the
version it replaces the parent of the new one. But a record may be stored with any
parent: the facts derived from a memory have that for their parent, and so it
stands among their versions.

`lists_versions` says when the history is one of versions only: as long as no record
is stored whose parent is there, unless it is stored once more; or under an id
that is the parent of others already. Counts of versions must not wrap.

Key definitions: `MemoryStore.getHistory`, `Recorded`, `ListsVersions`, `Recorded.KeepsLinks`.
Key theorems: `walk_historyLoop`, `counted_step`, `lists_versions`.
-/
import Amind.Capture.Pipeline
import Amind.Lib.ParentLinks
import Amind.Memory.Enumerate
import Amind.Memory.Versions

namespace Amind
namespace Memory

open Amind.Core Amind.Vector
open Run (run Along Paused pausing Still OnOps)
open ParentLinks (Counted Childless Walk)

namespace MemoryStore

variable {F : Type} [Floats F]

/-- Read on from an id, so many records at most. `now` are the times of the reads. -/
def historyLoop (now : ℕ → UInt32) : ℕ → ℕ → MemoryStore F → UInt64 → MemoryStore F × List (MemoryRecord F)
  | 0, _, s, _ => (s, [])
  | left + 1, i, s, currentId =>
    if currentId = 0 then (s, [])
    else
      match s.get currentId (now i) with
      | (s, .error _) => (s, [])
      | (s, .ok r) =>
        let (s, chain) := historyLoop now left (i + 1) s r.parentId
        (s, r :: chain)

/-- The record, the one before it, and so on. -/
def getHistory (s : MemoryStore F) (memoryId : UInt64) (maxDepth : ℤ) (now : ℕ → UInt32) :
    MemoryStore F × List (MemoryRecord F) :=
  s.historyLoop now maxDepth.toNat 0 memoryId

omit [Floats F] in
/-- The parent and the version number of a stored record. -/
def link (s : MemoryStore F) (id : UInt64) : Option (UInt64 × ℕ) :=
  (s.load id).map fun r => (r.parentId, r.memVersion.toNat)

end MemoryStore

/-- A store, and what was updated to what so far. -/
structure Recorded (F : Type) where
  opened : Opened F
  replaced : List (UInt64 × UInt64)

namespace Recorded

variable {F : Type} [Floats F]

def start (c : Config F) (h : HNSWConfig F) : Recorded F := ⟨.start c h, []⟩

/-- What an act replaces, and by what. -/
def replaces (x : Opened F) : Act F → List (UInt64 × UInt64)
  | .turn (.call (.update id c v clock now) _) =>
    (x.store.update id c v clock now).2.id.toList.map fun newId => (id, newId)
  | _ => []

def step (x : Recorded F) (a : Act F) : Recorded F := ⟨x.opened.act a, replaces x.opened a ++ x.replaced⟩

/-- The storage engine has come to answer so. -/
def settle (x : Recorded F) (answers : Answers F) : Recorded F := { x with opened := x.opened.settle answers }

omit [Floats F] in
theorem settle_lsm (x : Recorded F) : x.settle x.opened.store.lsm = x := rfl

/-- What a call must not do to the links: put in a record whose parent is there, or that
is the parent of others, unless it was there before with the same parent and version; or
count versions beyond what fits. -/
def KeepsLinks (x : Recorded F) : Act F → Prop
  | .turn (.call (.fastStore r clock _) _) => ∀ id ∈ x.opened.store.storedUnder r clock,
    x.opened.store.link id = some (r.parentId, r.memVersion.toNat) ∨
      Childless 0 x.opened.store.link id ∧
        (r.parentId = 0 ∨ r.parentId ≠ id ∧ x.opened.store.load r.parentId = none)
  | .turn (.call (.update id _ _ clock _) _) => ∀ old, x.opened.store.load id = some old →
    ∀ newId ∈ (x.opened.store.idGen.nextId clock).id,
      old.memVersion.toNat + 1 < 2 ^ 32 ∧ newId ≠ id ∧ Childless 0 x.opened.store.link newId
  | _ => True

/-- The list is one of versions: it starts with the record that is asked for, each next one
is the version that was updated to the one before it, of the number before, and no id is
there twice. After a record that no update made, nothing follows. -/
structure ListsVersions (x : Recorded F) (id : UInt64) (maxDepth : ℤ) (chain : List (MemoryRecord F)) : Prop where
  starts : id ≠ 0 → (x.opened.store.load id).isSome → 0 < maxDepth →
    ∃ r rest, chain = r :: rest ∧ r.memoryId = id
  isChain : chain.IsChain fun r old =>
    (old.memoryId, r.memoryId) ∈ x.replaced ∧ r.memVersion.toNat = old.memVersion.toNat + 1
  nodup : (chain.map (·.memoryId)).Nodup
  ends : ∀ front r rest, chain = front ++ r :: rest → (∀ old, (old, r.memoryId) ∉ x.replaced) → rest = []

end Recorded

/-! ### What a call does to the links -/

namespace MemoryStore

variable {F : Type} {s : MemoryStore F}

theorem link_eq_shown (s : MemoryStore F) (id : UInt64) :
    s.link id = (s.shown id).map fun v => (v.parentId, v.memVersion.toNat) := by
  rw [link, shown, Option.map_map]
  rfl

theorem link_of_load {id : UInt64} {r : MemoryRecord F} (h : s.load id = some r) :
    s.link id = some (r.parentId, r.memVersion.toNat) := by
  rw [link, h]
  rfl

variable [Floats F]

/-- After the writes, a link is that of the last one. -/
theorem link_exec_of_after (hs : s.Coherent) (op : Op F) (id : UInt64) : (s.exec op).link id =
    (after s.config.wire s.shown (s.wrote op) id).map fun v => (v.parentId, v.memVersion.toNat) := by
  rw [link_eq_shown, hs.shown_exec op]

/-- A call that creates nothing changes no link. -/
theorem link_exec (hs : s.Coherent) {op : Op F} (hc : s.created op = none) : (s.exec op).link = s.link := by
  funext id
  rw [link_exec_of_after hs]
  rcases after_cases s.config.wire (s.wrote op) s.shown id with ⟨r, hr, he⟩ | ⟨-, he⟩
  · rw [he]
    cases wrote_inv hr with
    | stored r' clock now hid =>
      have hsome : s.created (.fastStore r' clock now) = some id := hid
      rw [hc] at hsome
      cases hsome
    | @replacing i _ c v clock now _ h₀ hnew =>
      have hsome : s.created (.update i c v clock now) = some id := hnew
      rw [hc] at hsome
      cases hsome
    | versioned c v clock now h₀ => exact (link_of_load h₀).symm
    | removed h₀ => exact (link_of_load h₀).symm
    | archived h₀ => exact (link_of_load h₀).symm
    | embedded v h₀ => exact (link_of_load h₀).symm
    | boosted delta h₀ => exact (link_of_load h₀).symm
    | rewritten c h₀ => exact (link_of_load h₀).symm
  · rw [he, ← link_eq_shown]

omit [Floats F] in
theorem link_prepared (r : MemoryRecord F) (id : UInt64) (now : UInt32) :
    (prepared { r with memoryId := id } now).parentId = r.parentId ∧
      (prepared { r with memoryId := id } now).memVersion = r.memVersion := by
  unfold prepared
  dsimp only
  split <;> split <;> exact ⟨rfl, rfl⟩

omit [Floats F] in
theorem link_newVersion (old : MemoryRecord F) (newId : UInt64) (c : Text) (v : List F) (now : UInt32) :
    (newVersion old newId c v now).parentId = old.memoryId ∧
      (newVersion old newId c v now).memVersion = old.memVersion + 1 := by
  unfold newVersion
  dsimp only
  split <;> exact ⟨rfl, rfl⟩

/-- Storing a record puts in its link. -/
theorem link_fastStore (hs : s.Coherent) {r : MemoryRecord F} {clock : List ℤ} {now : UInt32} {id : UInt64}
    (hid : s.storedUnder r clock = some id) : (s.exec (.fastStore r clock now)).link =
      Function.update s.link id (some (r.parentId, r.memVersion.toNat)) := by
  have hw : s.wrote (.fastStore r clock now) = [(id, prepared { r with memoryId := id } now)] := by
    rw [wrote, id_fastStore, hid]
    rfl
  obtain ⟨hparent, hversion⟩ := link_prepared r id now
  funext j
  rw [link_exec_of_after hs, hw, after_one, Function.update_apply]
  split
  · exact congrArg some (Prod.ext hparent (congrArg UInt32.toNat hversion))
  · rw [← link_eq_shown]

/-- An update puts in the link of the new version. -/
theorem link_update (hs : s.Coherent) {old : MemoryRecord F} {id newId : UInt64} {c : Text} {v : List F}
    {clock : List ℤ} {now : UInt32} (hl : s.load id = some old) (hid : (s.idGen.nextId clock).id = some newId) :
    (s.exec (.update id c v clock now)).link =
      Function.update s.link newId (some (old.memoryId, (old.memVersion + 1).toNat)) := by
  have hw : s.wrote (.update id c v clock now) = [(id, old.markVersioned), (newId, newVersion old newId c v now)] := by
    rw [wrote, hl, id_update hl, hid]
    rfl
  obtain ⟨hparent, hversion⟩ := link_newVersion old newId c v now
  funext j
  rw [link_exec_of_after hs, hw, after_two, Function.update_apply]
  split
  · exact congrArg some (Prod.ext hparent (congrArg UInt32.toNat hversion))
  · split
    · rename_i hj
      rw [hj, link_of_load hl]
      rfl
    · rw [← link_eq_shown]

theorem link_get (s : MemoryStore F) (i : UInt64) (now : UInt32) : (s.get i now).1.link = s.link := by
  funext id
  rw [link_eq_shown, shown_get, ← link_eq_shown]

/-- What `get` answers with is the record, but for what reading it changes. -/
theorem ok_get {i : UInt64} {now : UInt32} {s' : MemoryStore F} {r : MemoryRecord F} (h : s.get i now = (s', .ok r)) :
    ∃ q, s.load i = some q ∧ version .whole r = version .whole q := by
  cases hc : s.cache.lookup i with
  | some q =>
    rw [get_cached hc] at h
    obtain ⟨-, hr⟩ := Prod.mk.inj h
    refine ⟨q, load_cached hc, ?_⟩
    rw [← Except.ok.inj hr, version_tryPromote]
    rfl
  | none =>
    cases hl : s.lsm i with
    | none =>
      rw [get_missing (by rw [load_stored hc, hl])] at h
      cases (Prod.mk.inj h).2
    | some q =>
      rw [get_stored hc hl] at h
      obtain ⟨-, hr⟩ := Prod.mk.inj h
      refine ⟨q, by rw [load_stored hc, hl], ?_⟩
      rw [← Except.ok.inj hr, version_tryPromote]
      rfl

/-- A record that is there is read. -/
theorem get_of_load {i : UInt64} {q : MemoryRecord F} (h : s.load i = some q) (now : UInt32) :
    ∃ s' r, s.get i now = (s', .ok r) := by
  cases hc : s.cache.lookup i with
  | some p => exact ⟨_, _, get_cached hc now⟩
  | none => exact ⟨_, _, get_stored hc (by rwa [load_stored hc] at h) now⟩

/-! ### What is read -/

/-- **The records that are read** are a walk along the links. -/
theorem walk_historyLoop (now : ℕ → UInt32) : ∀ (left i : ℕ) {s : MemoryStore F} (id : UInt64), s.Coherent → Own s →
    Walk 0 s.link (·.memoryId) (·.parentId) (fun r : MemoryRecord F => r.memVersion.toNat) id
      (s.historyLoop now left i id).2
  | 0, _, _, id, _, _ => .stop id
  | left + 1, i, s, id, hs, ho => by
    rw [historyLoop]
    by_cases hzero : id = 0
    · rw [if_pos hzero]
      exact .stop id
    · rw [if_neg hzero]
      have hget : s.link = (s.get id (now i)).1.link := (link_get s id (now i)).symm
      rcases hread : s.get id (now i) with ⟨s', e | r⟩
      · exact .stop id
      · obtain ⟨q, hq, hv⟩ := ok_get hread
        have hid : r.memoryId = q.memoryId := congrArg (fun r => r.memoryId) hv
        have hparent : r.parentId = q.parentId := congrArg (fun r => r.parentId) hv
        have hversion : r.memVersion = q.memVersion := congrArg (fun r => r.memVersion) hv
        rw [hread] at hget
        have hs' : s'.Coherent := by
          have h := coherent_get hs id (now i)
          rwa [hread] at h
        have ho' : Own s' := by
          have h := ho.get (respects_own _) id (now i)
          rwa [hread] at h
        refine .step hzero (hid.trans (ho.load hq)) ?_ ?_
        · rw [link_of_load hq, hparent, hversion]
        · rw [hget]
          exact walk_historyLoop now left (i + 1) r.parentId hs' ho'

end MemoryStore

/-! ### Runs -/

namespace Recorded

variable {F : Type} [Floats F] {x : Recorded F}

/-- What every step that keeps the links leaves: they count replacements. -/
structure Inv (x : Recorded F) : Prop where
  sound : x.opened.Sound
  own : Own x.opened.store
  counted : Counted 0 x.opened.store.link x.replaced

omit [Floats F] in
theorem inv_start (c : Config F) (h : HNSWConfig F) : (start c h).Inv where
  sound := Opened.sound_start c h
  own := everywhere_new c
  counted := ParentLinks.counted_empty

omit [Floats F] in
theorem toNat_succ {v : UInt32} (h : v.toNat + 1 < 2 ^ 32) : (v + 1).toNat = v.toNat + 1 := by
  rw [UInt32.toNat_add]
  exact Nat.mod_eq_of_lt h

theorem counted_fastStore (hx : x.Inv) {r : MemoryRecord F} {clock : List ℤ} {now : UInt32} {level : ℕ}
    (hk : x.KeepsLinks (.turn (.call (.fastStore r clock now) level))) :
    Counted 0 (x.opened.store.exec (.fastStore r clock now)).link x.replaced := by
  cases hid : x.opened.store.storedUnder r clock with
  | none =>
    have hnone : x.opened.store.created (.fastStore r clock now) = none :=
      (MemoryStore.id_fastStore r clock now).trans hid
    rw [MemoryStore.link_exec hx.sound.coherent hnone]
    exact hx.counted
  | some id =>
    rw [MemoryStore.link_fastStore hx.sound.coherent hid]
    rcases hk id hid with hsame | ⟨hfree, hparent⟩
    · rw [← hsame, Function.update_eq_self]
      exact hx.counted
    · refine hx.counted.put hfree fun hne => ?_
      obtain ⟨hself, hmissing⟩ := hparent.resolve_left hne
      refine ⟨hself, fun g m hg => ?_⟩
      rw [MemoryStore.link, hmissing] at hg
      cases hg

theorem counted_update (hx : x.Inv) {id : UInt64} {c : Text} {v : List F} {clock : List ℤ} {now : UInt32} {level : ℕ}
    (hk : x.KeepsLinks (.turn (.call (.update id c v clock now) level))) :
    Counted 0 (x.opened.store.exec (.update id c v clock now)).link
      ((x.opened.store.update id c v clock now).2.id.toList.map (fun newId => (id, newId)) ++ x.replaced) := by
  have hgrown : ∀ new : List (UInt64 × UInt64), Counted 0 x.opened.store.link (new ++ x.replaced) :=
    fun new => hx.counted.mono (List.subset_append_right new x.replaced)
  cases hl : x.opened.store.load id with
  | none =>
    have hnone : x.opened.store.created (.update id c v clock now) = none :=
      MemoryStore.id_update_missing hl c v clock now
    rw [MemoryStore.link_exec hx.sound.coherent hnone]
    exact hgrown _
  | some old =>
    have hdrawn := MemoryStore.id_update hl c v clock now
    cases hid : (x.opened.store.idGen.nextId clock).id with
    | none =>
      have hnone : x.opened.store.created (.update id c v clock now) = none := hdrawn.trans hid
      rw [MemoryStore.link_exec hx.sound.coherent hnone]
      exact hgrown _
    | some newId =>
      obtain ⟨hfits, hne, hfree⟩ := hk old hl newId hid
      rw [MemoryStore.link_update hx.sound.coherent hl hid, hdrawn, hid]
      refine (hgrown _).put hfree fun _ => ?_
      rw [hx.own.load hl]
      refine ⟨hne.symm, fun g m hg => ⟨List.mem_append_left _ (by simp), ?_⟩⟩
      rw [MemoryStore.link_of_load hl] at hg
      rw [toNat_succ hfits, (Prod.mk.inj (Option.some.inj hg)).2]

/-- **A step** that keeps the links. -/
theorem Inv.step (hx : x.Inv) {a : Act F} (hk : x.KeepsLinks a) : (x.step a).Inv where
  sound := hx.sound.act a
  own := Opened.own_act hx.sound hx.own a
  counted := by
    cases a with
    | get i now =>
      show Counted 0 (x.opened.store.get i now).1.link x.replaced
      rw [MemoryStore.link_get]
      exact hx.counted
    | turn t =>
      cases t with
      | reopen file keys levels =>
        have hsame : (x.opened.step (.reopen file keys levels)).store.link = x.opened.store.link := by
          funext id
          rw [MemoryStore.link_eq_shown, hx.sound.shown_reopen, ← MemoryStore.link_eq_shown]
        show Counted 0 (x.opened.step (.reopen file keys levels)).store.link x.replaced
        rw [hsame]
        exact hx.counted
      | call op level =>
        cases op with
        | fastStore r clock now => exact counted_fastStore hx hk
        | update id c v clock now => exact counted_update hx hk
        | _ =>
          show Counted 0 (x.opened.store.exec _).link x.replaced
          rw [MemoryStore.link_exec hx.sound.coherent rfl]
          exact hx.counted

/-- What is read where links count replacements. -/
theorem Inv.listsVersions (hx : x.Inv) (id : UInt64) (maxDepth : ℤ) (now : ℕ → UInt32) :
    x.ListsVersions id maxDepth (x.opened.store.getHistory id maxDepth now).2 := by
  have hwalk := MemoryStore.walk_historyLoop now maxDepth.toNat 0 id hx.sound.coherent hx.own
  have hchain := hwalk.isChain hx.counted
  refine ⟨fun hid hload hdepth => ?_, hchain, hwalk.nodup hx.counted, fun front r rest he hmade => ?_⟩
  · obtain ⟨q, hq⟩ := Option.isSome_iff_exists.mp hload
    obtain ⟨s', r, hread⟩ := MemoryStore.get_of_load hq (now 0)
    obtain ⟨q', hq', hv⟩ := MemoryStore.ok_get hread
    obtain ⟨left, hleft⟩ : ∃ left, maxDepth.toNat = left + 1 := ⟨maxDepth.toNat - 1, by omega⟩
    refine ⟨r, (s'.historyLoop now left 1 r.parentId).2, ?_, ?_⟩
    · rw [MemoryStore.getHistory, hleft, MemoryStore.historyLoop, if_neg hid, hread]
    · have hsame : r.memoryId = q'.memoryId := congrArg (fun r => r.memoryId) hv
      exact hsame.trans (hx.own.load hq')
  · cases rest with
    | nil => rfl
    | cons old rest =>
      have hpart : (r :: old :: rest) <:+ (x.opened.store.getHistory id maxDepth now).2 := ⟨front, he.symm⟩
      exact absurd (List.isChain_cons_cons.mp (hchain.suffix hpart)).1.1 (hmade _)

def begun : Recorded ℤ := start History.hundredCached Opened.squared

/-- A memory is stored. -/
def storeFirst : Act ℤ := .turn (.call (.fastStore { MemoryRecord.zero with memoryId := 1 } [] 1) 0)

/-- It is updated. -/
def updateFirst : Act ℤ := .turn (.call (.update 1 [] [] [CUSTOM_EPOCH_MS + 1] 2) 0)

/-- A fact is derived from it. -/
def deriveFromFirst : Act ℤ :=
  .turn (.call (.fastStore (Capture.derivedRecord 0 1 [] [] ⟨[], 0, .inference, [], .empty, .private, .ephemeral⟩
    ⟨.accepted, [], 0⟩) [CUSTOM_EPOCH_MS + 1] 2) 0)

theorem link_begun : begun.opened.store.link = fun _ => none := rfl

theorem link_storeFirst : (begun.step storeFirst).opened.store.link =
    Function.update (fun _ : UInt64 => none) 1 (some ((0 : UInt64), 1)) := by
  have hid : begun.opened.store.storedUnder { MemoryRecord.zero with memoryId := 1 } [] = some 1 := rfl
  have h : (begun.step storeFirst).opened.store.link = Function.update begun.opened.store.link 1 _ :=
    MemoryStore.link_fastStore (MemoryStore.coherent_new _) hid
  rw [link_begun] at h
  exact h

theorem along_updated : Along step KeepsLinks begun [storeFirst, updateFirst] := by
  refine ⟨fun id hid => .inr ⟨fun _ child parent n h => ?_, .inl rfl⟩, fun old hold newId hid => ⟨?_, ?_, ?_⟩, trivial⟩
  · rw [link_begun] at h
    cases h
  · have hlink := MemoryStore.link_of_load hold
    rw [link_storeFirst, Function.update_self] at hlink
    have hversion := (Prod.mk.inj (Option.some.inj hlink)).2
    omega
  · have hdrawn : ((begun.step storeFirst).opened.store.idGen.nextId [CUSTOM_EPOCH_MS + 1]).id = some 4194304 := by
      decide
    obtain rfl := Option.some.inj (hdrawn.symm.trans hid)
    decide
  · intro hne child parent n h _ hparent
    rw [link_storeFirst, Function.update_apply] at h
    split at h
    · obtain ⟨rfl, -⟩ := Prod.mk.inj (Option.some.inj h)
      exact hne hparent.symm
    · cases h

/-- The memory is stored and updated, and tables are merged with no change. -/
def updatedThenMerged : List (Paused (Act ℤ) (Answers ℤ)) :=
  [storeFirst, updateFirst].map .op ++ [.pause (run step begun [storeFirst, updateFirst]).opened.store.lsm]

/-- A memory is stored, and a fact derived from it. -/
def derived : List (Paused (Act ℤ) (Answers ℤ)) := [storeFirst, deriveFromFirst].map .op

end Recorded
end Memory
end Amind
