/-
# Revoked keys

Revoking a key marks its record and takes the key out of memory. The record is
changed only while it is cached: one that was given up stays as it is in the
storage engine, and counts again from the next start on. The key is taken out
of memory by the text of its id, but the record is found by the number the text
stands for, so another text of the number leaves the key in memory.

`rejected_of_revoked` says that a revoked token is never accepted again, if the
record was cached or removed when it was revoked, by the decimal text of its id,
and nothing else brings the key's hash.
-/
import Amind.Auth.Keys

namespace Amind
namespace Auth

open Amind.Core Amind.Memory Amind.Vector Json
open Core.WireFormat (MAX_SIZE)
open Run (run Along Paused pausing Still OnOps)

/-! ### Decimal texts -/

theorem isSpace_of_isDigit {b : UInt8} (h : isDigit b = true) : isSpace b = false := by
  obtain ⟨h₁, h₂⟩ := of_decide_eq_true h
  rw [UInt8.le_iff_toNat_le] at h₁ h₂
  have h₁ : 48 ≤ b.toNat := h₁
  refine decide_eq_false ?_
  rintro (hb | ⟨-, hb⟩)
  · rw [hb] at h₁
    exact absurd h₁ (by decide)
  · rw [UInt8.le_iff_toNat_le] at hb
    have hb : b.toNat ≤ 13 := hb
    omega

/-- The decimal text of a number stands for it. -/
theorem stoull_toString (id : UInt64) : stoull (toString id) = some id := by
  have hdigits := dumpNat_digits id.toNat
  obtain ⟨b, s, hs⟩ := List.exists_cons_of_ne_nil (dumpNat_ne_nil id.toNat)
  have hb : isDigit b = true := hdigits b (hs ▸ List.mem_cons_self)
  have hspace : (dumpNat id.toNat).dropWhile isSpace = dumpNat id.toNat := by
    rw [hs, List.dropWhile_cons, isSpace_of_isDigit hb]
    rfl
  have hminus : (dumpNat id.toNat).head? ≠ some 0x2D := by
    rw [hs]
    intro he
    rw [Option.some.inj he] at hb
    revert hb
    decide
  have hplus : (dumpNat id.toNat).head? ≠ some 0x2B := by
    rw [hs]
    intro he
    rw [Option.some.inj he] at hb
    revert hb
    decide
  have hlt : ¬ 2 ^ 64 ≤ id.toNat := Nat.not_le.mpr id.toNat_lt
  unfold stoull toString
  simp only [hspace, hminus, hplus, decide_false, or_self, if_false, takeWhile_dumpNat, readNat_dumpNat,
    dumpNat_ne_nil, hlt, UInt64.ofNat_toNat, Bool.false_eq_true]

/-! ### Who has a hash -/

section Owners

variable {F D : Type} (nf : Numbers F D) (sha256Hex : Text → Utf8Text) (hash : Utf8Text)

/-- Nothing brings the hash: no other key that is created, no content. -/
def Apart (_ : Authority F) : Event F → Prop
  | .createKey _ random _ _ _ => sha256Hex (fullKey random) ≠ hash
  | .act (.turn (.call op _)) => ∀ c, op.content = some c → Says nf (· ≠ hash) c
  | _ => True

variable {nf} {sha256Hex} {hash}

variable [Floats F]

/-- The storage engine has come to answer so. -/
def Authority.settle (x : Authority F) (answers : Answers F) : Authority F :=
  { x with opened := x.opened.settle answers }

omit [Floats F] in
theorem Authority.settle_lsm (x : Authority F) : x.settle x.opened.store.lsm = x := rfl

/-- The storage engine keeps its answers, and nothing brings the hash. -/
def Undisturbed (nf : Numbers F D) (sha256Hex : Text → Utf8Text) (hash : Utf8Text) (x : Authority F)
    (e : Paused (Event F) (Answers F)) : Prop :=
  Still Authority.settle x e ∧ OnOps (Apart nf sha256Hex hash) x e

/-- A property of records and one of keys in memory that every step keeps, if
nothing brings the hash. -/
structure Stable (nf : Numbers F D) (hnf : nf.Lawful) (hash : Utf8Text) (P : UInt64 → MemoryRecord F → Prop)
    (K : CachedKey → Prop) : Prop where
  respects : Respects (wireOf nf hnf) P
  memoryId : ∀ id r, P id r → r.memoryId = id
  /-- A record with a new content. -/
  fresh : ∀ id r, r.memoryId = id → Says nf (· ≠ hash) r.content → P id r
  /-- A record that was changed otherwise. -/
  kept : ∀ id r₀ r, P id r₀ → r.memoryId = id → r.content = r₀.content → (r₀.Tombstoned → r.Tombstoned) → P id r
  /-- A key that is collected from a record. -/
  loaded : ∀ id r k used, P id r → r.isAlive = true → keyOf nf r.content = some (k.hash, used) →
    k.id = toString r.memoryId → K k
  other : ∀ k, k.hash ≠ hash → K k
  same : ∀ k k', k.id = k'.id → k.hash = k'.hash → K k → K k'

/-- Every copy of every record and every key in memory has its property. -/
structure Holding (nf : Numbers F D) (hnf : nf.Lawful) (P : UInt64 → MemoryRecord F → Prop) (K : CachedKey → Prop)
    (x : Authority F) : Prop where
  sound : x.opened.Sound
  wire : x.opened.store.config.wire = wireOf nf hnf
  keys : ∀ k ∈ x.keys, K k
  contents : Everywhere P x.opened.store

namespace Holding

variable {hnf : nf.Lawful} {P : UInt64 → MemoryRecord F → Prop} {K : CachedKey → Prop} {x : Authority F}

theorem contents_act (h : Holding nf hnf P K x) (hst : Stable nf hnf hash P K) {a : Act F}
    (ha : ∀ op level, a = .turn (.call op level) → ∀ c, op.content = some c → Says nf (· ≠ hash) c) :
    Everywhere P (x.opened.act a).store := by
  refine Opened.everywhere_act h.sound h.contents (by rw [h.wire]; exact hst.respects) ?_
  cases a with
  | get i now => trivial
  | turn t =>
    cases t with
    | reopen file keys levels => trivial
    | call op level =>
      intro id r hw
      have hid := MemoryStore.memoryId_of_wrote (fun r₀ hr₀ => hst.memoryId id r₀ (h.contents.load hr₀)) hw
      rcases content_of_wrote hw with hc | ⟨r₀, hr₀, hc, htomb⟩
      · exact hst.fresh id r hid (ha op level rfl _ hc)
      · exact hst.kept id r₀ r (h.contents.load hr₀) hid hc htomb

theorem wire_act (h : Holding nf hnf P K x) (a : Act F) : (x.opened.act a).store.config.wire = wireOf nf hnf := by
  rw [Opened.config_act h.sound, h.wire]

theorem createKey (h : Holding nf hnf P K x) (hst : Stable nf hnf hash P K) (label : Utf8Text)
    {random : Vector UInt8 32} (hr : sha256Hex (fullKey random) ≠ hash) (seconds : UInt64) (clock : List ℤ)
    (now : UInt32) : Holding nf hnf P K (x.createKey nf sha256Hex label random seconds clock now).1 := by
  unfold Authority.createKey
  dsimp only
  split
  · refine ⟨h.sound.act (.turn (.call _ 0)), h.wire_act (.turn (.call _ 0)), fun k hk => ?_, ?_⟩
    · rcases List.mem_append.mp hk with hk | hk
      · exact h.keys k hk
      · rw [List.mem_singleton.mp hk]
        exact hst.other _ hr
    · refine h.contents_act hst (a := .turn (.call _ 0)) fun op level he c hc => ?_
      cases he
      cases hc
      refine says_dump hnf (wellFormed_keyMeta sha256Hex label random seconds) fun k hk => ?_
      rw [readKey_keyMeta] at hk
      cases hk
      exact hr
  · exact h

theorem revokeKey (h : Holding nf hnf P K x) (hst : Stable nf hnf hash P K) (keyId : Text) :
    Holding nf hnf P K (x.revokeKey nf keyId).1 := by
  rcases x.revokeKey_cases hnf keyId with ⟨he, -⟩ | ⟨id, r, ms, -, -, hwell, hnone, he⟩
  · rw [he]
    exact h
  · rw [he]
    refine ⟨h.sound.act (.turn (.call _ 0)), h.wire_act (.turn (.call _ 0)),
      fun k hk => h.keys k (List.mem_of_mem_filter hk), ?_⟩
    refine h.contents_act hst (a := .turn (.call _ 0)) fun op level ho c hc => ?_
    cases ho
    cases hc
    refine says_dump hnf hwell fun k hk => ?_
    rw [hnone] at hk
    cases hk

theorem act (h : Holding nf hnf P K x) (hst : Stable nf hnf hash P K) {a : Act F}
    (ha : Apart nf sha256Hex hash x (.act a)) :
    Holding nf hnf P K (x.step nf sha256Hex (.act a)) := by
  obtain ⟨hopened, -, hkeys⟩ := x.step_act a
  have hall : Everywhere P (x.opened.act a).store := by
    refine h.contents_act hst fun op level he c hc => ?_
    subst he
    exact ha c hc
  refine ⟨hopened ▸ h.sound.act a, ?_, fun k hk => ?_, ?_⟩
  · rw [hopened]
    exact h.wire_act a
  · rcases hkeys with he | ⟨⟨file, keys, levels, rfl⟩, he⟩
    · rw [he] at hk
      exact h.keys k hk
    · rw [he] at hk
      obtain ⟨id, r, used, hc, hof, hid⟩ := Authority.mem_refreshCache hk
      exact hst.loaded id r k used (hall.cached id r hc) (Opened.alive_of_reopen hc) hof hid
  · rw [hopened]
    exact hall

theorem step (h : Holding nf hnf P K x) (hst : Stable nf hnf hash P K) {e : Event F}
    (ha : Apart nf sha256Hex hash x e) :
    Holding nf hnf P K (x.step nf sha256Hex e) := by
  cases e with
  | createKey label random seconds clock now => exact h.createKey hst label ha seconds clock now
  | revokeKey keyId => exact h.revokeKey hst keyId
  | validateKey token seconds =>
    obtain ⟨hopened, -⟩ := x.opened_noteUse token seconds
    show Holding nf hnf P K (x.noteUse sha256Hex token seconds)
    refine ⟨hopened ▸ h.sound, hopened ▸ h.wire, fun k hk => ?_, hopened ▸ h.contents⟩
    obtain ⟨k₀, hk₀, hid, hhash⟩ := Authority.mem_noteUse hk
    exact hst.same k₀ k hid hhash (h.keys k₀ hk₀)
  | act a => exact h.act hst ha

theorem run (h : Holding nf hnf P K x) (hst : Stable nf hnf hash P K) {es : List (Paused (Event F) (Answers F))}
    (ha : Along (pausing (Authority.step nf sha256Hex) Authority.settle) (Undisturbed nf sha256Hex hash) x es) :
    Holding nf hnf P K (Run.run (pausing (Authority.step nf sha256Hex) Authority.settle) x es) := by
  refine Run.run_inv (pausing (Authority.step nf sha256Hex) Authority.settle) (I := fun _ x => Holding nf hnf P K x)
    (C := Undisturbed nf sha256Hex hash) ?_ es [] x h ha
  rintro _ y (e | answers) hy ⟨hstill, hapart⟩
  · exact hy.step hst hapart
  · have hsame : y.settle answers = y := hstill
    show Holding nf hnf P K (y.settle answers)
    rw [hsame]
    exact hy

end Holding

/-! ### The record of the key -/

/-- Only the record of the owner may be one of a key with the hash. -/
def OwnedRecord (nf : Numbers F D) (hash : Utf8Text) (owner : Option UInt64) (id : UInt64)
    (r : MemoryRecord F) : Prop :=
  r.memoryId = id ∧ (owner ≠ some id → Says nf (· ≠ hash) r.content)

def OwnedKey (hash : Utf8Text) (owner : Option UInt64) (k : CachedKey) : Prop :=
  k.hash = hash → ∃ id, owner = some id ∧ k.id = toString id

/-- No record is one of a key with the hash, but for removed ones. -/
def MutedRecord (nf : Numbers F D) (hash : Utf8Text) (id : UInt64) (r : MemoryRecord F) : Prop :=
  r.memoryId = id ∧ (Says nf (· ≠ hash) r.content ∨ r.Tombstoned)

theorem stable_owned (hnf : nf.Lawful) (owner : Option UInt64) :
    Stable nf hnf hash (OwnedRecord (F := F) nf hash owner) (OwnedKey hash owner) where
  respects :=
    have hs := respects_says (F := F) hnf (· ≠ hash)
    ⟨fun id r r' hv h => ⟨(congrArg (fun r => r.memoryId) hv).symm.trans h.1, fun ho => hs.version id r r' hv (h.2 ho)⟩,
      fun id r h => ⟨h.1, fun ho => hs.wire id r (h.2 ho)⟩⟩
  memoryId := fun _ _ h => h.1
  fresh := fun _ _ hid h => ⟨hid, fun _ => h⟩
  kept := fun _ _ _ h hid hc _ => ⟨hid, fun ho => hc ▸ h.2 ho⟩
  loaded := fun id r k used h _ hof hid hhash => by
    by_cases ho : owner = some id
    · exact ⟨id, ho, by rw [hid, h.1]⟩
    · exact absurd hhash (h.2 ho _ List.mem_cons_self _ hof)
  other := fun _ hk hhash => absurd hhash hk
  same := fun k k' hid hhash h he => by
    obtain ⟨id, ho, hk⟩ := h (hhash.trans he)
    exact ⟨id, ho, hid ▸ hk⟩

theorem stable_muted (hnf : nf.Lawful) :
    Stable nf hnf hash (MutedRecord (F := F) nf hash) fun k => k.hash ≠ hash where
  respects :=
    have hs := respects_says (F := F) hnf (· ≠ hash)
    ⟨fun id r r' hv h => ⟨(congrArg (fun r => r.memoryId) hv).symm.trans h.1,
      h.2.imp (hs.version id r r' hv) fun ht => by
        have hflags : r.flags = r'.flags := congrArg (fun r => r.flags) hv
        unfold MemoryRecord.Tombstoned at ht ⊢
        rwa [hflags] at ht⟩,
      fun id r h => ⟨h.1, h.2.imp (hs.wire id r) fun ht => ht.wire _⟩⟩
  memoryId := fun _ _ h => h.1
  fresh := fun _ _ hid h => ⟨hid, .inl h⟩
  kept := fun _ _ _ h hid hc ht => ⟨hid, h.2.imp (fun hs => hc ▸ hs) ht⟩
  loaded := fun id r k used h ha hof _ => by
    rcases h.2 with hs | ht
    · exact hs _ List.mem_cons_self _ hof
    · rw [ht.not_alive] at ha
      cases ha
  other := fun _ hk => hk
  same := fun _ _ _ hhash h => hhash ▸ h

/-! ### Creating and revoking it -/

section Key

variable {hnf : nf.Lawful} {x : Authority F} {id : UInt64}

/-- A key that is created is owned by its record. -/
theorem owned_createKey {random : Vector UInt8 32} {label : Utf8Text} {seconds : UInt64} {clock : List ℤ} {now : UInt32}
    (h : Holding nf hnf (OwnedRecord nf (sha256Hex (fullKey random)) none) (OwnedKey (sha256Hex (fullKey random)) none) x)
    (hid : (x.opened.store.fastStore (keyRecord nf sha256Hex label random seconds) clock now).2 = .ok id) :
    Holding nf hnf (OwnedRecord nf (sha256Hex (fullKey random)) (some id))
      (OwnedKey (sha256Hex (fullKey random)) (some id)) (x.createKey nf sha256Hex label random seconds clock now).1 := by
  have hweaken : ∀ i (r : MemoryRecord F), OwnedRecord nf (sha256Hex (fullKey random)) none i r →
      OwnedRecord nf (sha256Hex (fullKey random)) (some id) i r := fun i r h => ⟨h.1, fun _ => h.2 nofun⟩
  have hall : Everywhere (OwnedRecord nf (sha256Hex (fullKey random)) (some id)) x.opened.store :=
    ⟨fun i r hr => hweaken i r (h.contents.stored i r hr), fun i r hr => hweaken i r (h.contents.cached i r hr)⟩
  have hresult : (x.createKey nf sha256Hex label random seconds clock now).1 =
      { opened := x.opened.call (.fastStore (keyRecord nf sha256Hex label random seconds) clock now) 0
        keys := x.keys ++ [⟨toString id, sha256Hex (fullKey random), 0⟩]
        issued := fullKey random :: x.issued } := by
    unfold Authority.createKey
    dsimp only
    rw [hid]
  rw [hresult]
  refine ⟨h.sound.act (.turn (.call _ 0)), h.wire_act (.turn (.call _ 0)), fun k hk => ?_, ?_⟩
  · rcases List.mem_append.mp hk with hk | hk
    · intro hhash
      obtain ⟨i, hi, -⟩ := h.keys k hk hhash
      cases hi
    · rw [List.mem_singleton.mp hk]
      exact fun _ => ⟨id, rfl, rfl⟩
  · show Everywhere _ (x.opened.store.exec (.fastStore (keyRecord nf sha256Hex label random seconds) clock now))
    refine hall.exec (by rw [h.wire]; exact (stable_owned hnf (some id)).respects) fun i r hw => ?_
    rw [MemoryStore.wrote, hid] at hw
    obtain ⟨rfl, rfl⟩ := Prod.mk.inj (List.mem_singleton.mp hw)
    exact ⟨MemoryStore.prepared_memoryId _ _, fun ho => absurd rfl ho⟩

/-- The record can be changed, or counts no more: it is cached, or it was
removed. -/
def Reached (s : MemoryStore F) (id : UInt64) : Prop :=
  (s.cache.lookup id).isSome ∨ ∀ r, s.lsm id = some r → r.Tombstoned

/-- The copies of a record whose content is changed in place. -/
theorem muted_updateInPlace {s : MemoryStore F} (hwire : s.config.wire = wireOf nf hnf) (hreach : Reached s id)
    {c : Text}
    (hsaid : Says nf (· ≠ hash) c) (r : MemoryRecord F)
    (hr : (s.exec (.updateInPlace id c)).lsm id = some r ∨ (s.exec (.updateInPlace id c)).cache.lookup id = some r) :
    Says nf (· ≠ hash) r.content ∨ r.Tombstoned := by
  cases hc : s.cache.lookup id with
  | some r₀ =>
    have hw : s.wrote (.updateInPlace id c) = [(id, { r₀ with content := c })] := by
      rw [MemoryStore.wrote, hc, MemoryStore.load_cached hc]
      rfl
    have hconfig : (s.exec (.updateInPlace id c)).config.wire = wireOf nf hnf := by rw [MemoryStore.config_exec, hwire]
    have hcopies := Opened.copies_of_wrote hw
    have hresp := respects_says (F := F) hnf (· ≠ hash)
    have hwired := hresp.wire id { r₀ with content := c } hsaid
    rcases hr with hr | hr
    · obtain ⟨p, hp, hv⟩ := hcopies.stored
      rw [hconfig, Option.some.inj (hp.symm.trans hr)] at hv
      exact .inl (hresp.version id _ r hv.symm hwired)
    · rcases hcopies.cached r hr with hv | hv
      · exact .inl (hresp.version id _ r hv.symm hsaid)
      · rw [hconfig] at hv
        exact .inl (hresp.version id _ r hv.symm hwired)
  | none =>
    have hsame : s.exec (.updateInPlace id c) = s := by
      show s.updateInPlace id c = s
      unfold MemoryStore.updateInPlace
      rw [hc]
      rfl
    rw [hsame] at hr
    rcases hreach with hs | hdead
    · rw [hc] at hs
      cases hs
    · rcases hr with hr | hr
      · exact .inr (hdead r hr)
      · rw [hc] at hr
        cases hr

theorem eq_ok_of_isOk {e : Except Fault Unit} (h : e.isOk = true) : e = .ok () := by
  cases e with
  | error e => cases h
  | ok u => rfl

/-- A key that is revoked by the text of its id. -/
theorem muted_revokeKey (h : Holding nf hnf (OwnedRecord nf hash (some id)) (OwnedKey hash (some id)) x)
    (hok : (x.revokeKey nf (toString id)).2 = .ok ()) (hreach : Reached x.opened.store id) :
    Holding nf hnf (MutedRecord nf hash) (fun k => k.hash ≠ hash) (x.revokeKey nf (toString id)).1 := by
  rcases x.revokeKey_cases hnf (toString id) with ⟨-, he⟩ | ⟨i, r, ms, hi, -, hwell, hnone, he⟩
  · rw [hok] at he
    exact absurd rfl he
  have hid : i = id := Option.some.inj (hi.symm.trans (stoull_toString id))
  subst hid
  have hsaid : Says nf (· ≠ hash) (CONTENT_PREFIX ++ nf.text.dump (.obj ms)) :=
    says_dump hnf hwell fun k hk => by
      rw [hnone] at hk
      cases hk
  have hwire := h.wire_act (.turn (.call (.updateInPlace i (CONTENT_PREFIX ++ nf.text.dump (.obj ms))) 0))
  have howned := h.contents_act (stable_owned hnf (some i))
    (a := .turn (.call (.updateInPlace i (CONTENT_PREFIX ++ nf.text.dump (.obj ms))) 0)) fun op level ho c hc => by
      cases ho
      cases hc
      exact hsaid
  rw [he]
  generalize CONTENT_PREFIX ++ nf.text.dump (.obj ms) = c at hsaid hwire howned ⊢
  refine ⟨h.sound.act (.turn (.call _ 0)), hwire, fun k hk hhash => ?_, ?_⟩
  · obtain ⟨hk, hne⟩ := List.mem_filter.mp hk
    obtain ⟨i', ho, hkid⟩ := h.keys k hk hhash
    cases ho
    exact of_decide_eq_true hne hkid
  -- the other records are not the key's, and the key's is changed or removed
  · have hother : ∀ j r, OwnedRecord nf hash (some i) j r → j ≠ i → MutedRecord nf hash j r := by
      intro j r hr hj
      exact ⟨hr.1, .inl (hr.2 fun ho => hj (Option.some.inj ho).symm)⟩
    have hself := muted_updateInPlace h.wire hreach hsaid
    refine ⟨fun j r hr => ?_, fun j r hr => ?_⟩
    · by_cases hj : j = i
      · subst hj
        exact ⟨(howned.stored j r hr).1, hself r (.inl hr)⟩
      · exact hother j r (howned.stored j r hr) hj
    · by_cases hj : j = i
      · subst hj
        exact ⟨(howned.cached j r hr).1, hself r (.inr hr)⟩
      · exact hother j r (howned.cached j r hr) hj

end Key

end Owners

/-! ### A server with one key -/

namespace Authority

/-- The key is the first record that is stored. -/
def firstKey : Event UInt32 := .createKey ops zeros 100 [1735689600001] 7

def revokeFirst : Event UInt32 := .revokeKey (toString 4194304)

def noteOnce : List (Paused (Event UInt32) (Answers UInt32)) :=
  [.op (.act (.turn (.call (.fastStore note [] 8) 0)))]

def restarted : Event UInt32 := .act (.turn (.reopen none [4194304] fun _ => 0))

/-- The server that has created the key and stored a note. -/
def noted : Authority UInt32 :=
  run (pausing (step bits sha256) settle) (fresh.step bits sha256 firstKey) noteOnce

/-- Tables are merged with no change, and the server starts again. -/
def mergedRestarted : List (Paused (Event UInt32) (Answers UInt32)) :=
  [.pause (noted.step bits sha256 revokeFirst).opened.store.lsm, .op restarted]

/-- What someone says to the default agent. -/
def teaRequest : Capture.Request where
  content := Utf8.bytes "likes tea"
  agentId := Utf8.bytes "default"
  userId := Utf8.bytes "ann"

def captureAt (millis : ℤ) : Event UInt32 :=
  .act (.turn (.call (.fastStore (Capture.newRecord 0x3F000000 teaRequest) [millis] 8) 0))

/-- The key's record is the one that the cache gives up. -/
def crowded : Authority UInt32 :=
  run (step bits sha256) fresh
    [firstKey, captureAt 1735689600002, captureAt 1735689600003, captureAt 1735689600004, captureAt 1735689600005]

end Authority

end Auth
end Amind
