/-
# API keys

A key is kept as a record whose content is a marker followed by a JSON text
with the hash of the key. The hashes a token is checked against are kept in
memory; they are collected anew, from every cached record whose content starts
with the marker, each time the server starts.

So a record that anyone stores with such a content counts as a key from the
next start on. `issued_of_validateKey` says that nothing else does: a token is
accepted only if it was returned by `createKey`, in every run in which no call
brings such a content with the hash of a token that was not.
-/
import Amind.Capture.Intake
import Amind.Lib.Sha256
import Amind.Memory.Contents

namespace Amind
namespace Auth

open Amind.Core Amind.Memory Amind.Vector Json
open Core.WireFormat (MAX_SIZE)
open Run (run Along)

/-! ### Tokens -/

def KEY_PREFIX : Text := Utf8.bytes "amk_"

def CONTENT_PREFIX : Text := Utf8.bytes "__apikey__:"

/-- The alphabet of URL-safe base 64. -/
def table : List UInt8 := Utf8.bytes "ABCDEFGHIJKLMNOPQRSTUVWXYZabcdefghijklmnopqrstuvwxyz0123456789-_"

def digit64 (n : ℕ) : UInt8 := table.getD (n % 64) 0

/-- Three bytes make four digits; there is no padding. -/
def base64 : List UInt8 → Text
  | a :: b :: c :: rest =>
    let val := 65536 * a.toNat + 256 * b.toNat + c.toNat
    digit64 (val / 262144) :: digit64 (val / 4096) :: digit64 (val / 64) :: digit64 val :: base64 rest
  | [a, b] =>
    let val := 65536 * a.toNat + 256 * b.toNat
    [digit64 (val / 262144), digit64 (val / 4096), digit64 (val / 64)]
  | [a] => [digit64 (65536 * a.toNat / 262144), digit64 (65536 * a.toNat / 4096)]
  | [] => []

/-- A key of 32 random bytes. -/
def generateRawKey (random : Vector UInt8 32) : Text := base64 random.toList

def fullKey (random : Vector UInt8 32) : Text := KEY_PREFIX ++ generateRawKey random

theorem digit64_lt (n : ℕ) : digit64 n < 0x80 := by
  have hall : ∀ k < 64, table.getD k 0 < 0x80 := by decide +kernel
  exact hall (n % 64) (Nat.mod_lt _ (by decide))

theorem base64_lt : ∀ (s : List UInt8), ∀ b ∈ base64 s, b < 0x80
  | a :: b :: c :: rest => by
    have ih := base64_lt rest
    simp only [base64, List.forall_mem_cons]
    exact ⟨digit64_lt _, digit64_lt _, digit64_lt _, digit64_lt _, ih⟩
  | [a, b] => by simp only [base64, List.forall_mem_cons, digit64_lt]; simp
  | [a] => by simp only [base64, List.forall_mem_cons, digit64_lt]; simp
  | [] => by simp [base64]

theorem fullKey_lt (random : Vector UInt8 32) : ∀ b ∈ fullKey random, b < 0x80 := by
  have hfront : ∀ b ∈ KEY_PREFIX, b < 0x80 := by decide +kernel
  exact List.forall_mem_append.mpr ⟨hfront, base64_lt _⟩

/-- The first twelve characters of a key, which are shown. -/
def keyPrefix (random : Vector UInt8 32) : Utf8Text :=
  ⟨(fullKey random).take 12, Utf8.valid_of_ascii fun b hb => fullKey_lt random b (List.mem_of_mem_take hb)⟩

/-! ### Key records -/

namespace Field

def createdAt : Utf8Text := ⟨Utf8.bytes "created_at", by decide +kernel⟩
def keyHash : Utf8Text := ⟨Utf8.bytes "key_hash", by decide +kernel⟩
def keyPrefix : Utf8Text := ⟨Utf8.bytes "key_prefix", by decide +kernel⟩
def label : Utf8Text := ⟨Utf8.bytes "label", by decide +kernel⟩
def lastUsedAt : Utf8Text := ⟨Utf8.bytes "last_used_at", by decide +kernel⟩
def revoked : Utf8Text := ⟨Utf8.bytes "revoked", by decide +kernel⟩

end Field

section Records

variable {F D : Type}

/-- What a key's record says of it. -/
def keyMeta (sha256Hex : Text → Utf8Text) (label : Utf8Text) (random : Vector UInt8 32) (seconds : UInt64) :
    List (Utf8Text × Json D) :=
  [(Field.createdAt, .int seconds.toNat), (Field.keyHash, .str (sha256Hex (fullKey random))),
   (Field.keyPrefix, .str (keyPrefix random)), (Field.label, .str label), (Field.lastUsedAt, .int 0),
   (Field.revoked, .bool false)]

variable (nf : Numbers F D)

def keyRecord [Zero F] (sha256Hex : Text → Utf8Text) (label : Utf8Text) (random : Vector UInt8 32)
    (seconds : UInt64) : MemoryRecord F :=
  { MemoryRecord.zero with
    content := CONTENT_PREFIX ++ nf.text.dump (.obj (keyMeta sha256Hex label random seconds))
    scope := .agentShared
    memoryType := .domainKnowledge
    confidenceLevel := .verified
    confidenceScore := nf.ofBits 0x3F000000 }

/-! A member of an object, or the default if there is none. A member of another
type, or a value that is no object, is an error. -/

def valueBool (j : Json D) (k : Utf8Text) (default : Bool) : Option Bool :=
  match j with
  | .obj ms =>
    match ms.lookup k with
    | some (.bool b) => some b
    | some _ => none
    | none => some default
  | _ => none

def valueString (j : Json D) (k : Utf8Text) (default : Utf8Text) : Option Utf8Text :=
  match j with
  | .obj ms =>
    match ms.lookup k with
    | some (.str s) => some s
    | some _ => none
    | none => some default
  | _ => none

def valueUInt64 (j : Json D) (k : Utf8Text) (default : UInt64) : Option UInt64 :=
  match j with
  | .obj ms =>
    match ms.lookup k with
    | some v => (toInt nf v).map UInt64.ofInt
    | none => some default
  | _ => none

/-- A key as it is kept in memory. -/
structure CachedKey where
  id : Text
  hash : Utf8Text
  lastUsed : UInt64

/-- The hash of a key and when it was used, if it is not revoked. -/
def readKey (j : Json D) : Option (Utf8Text × UInt64) :=
  (valueBool j Field.revoked false).bind fun revoked =>
    if revoked then none
    else
      (valueString j Field.keyHash ⟨[], Utf8.valid_nil⟩).bind fun hash =>
        (valueUInt64 nf j Field.lastUsedAt 0).map fun used => (hash, used)

/-- What a content says of a key, if it starts with the marker. -/
def keyOf (content : Text) : Option (Utf8Text × UInt64) :=
  if content.take CONTENT_PREFIX.length = CONTENT_PREFIX then
    (nf.text.parse (content.drop CONTENT_PREFIX.length)).bind (readKey nf)
  else none

/-- A number in decimal. -/
def toString (id : UInt64) : Text := dumpNat id.toNat

/-- Collect the keys of the cached records. -/
def refreshCache (s : MemoryStore F) : List CachedKey :=
  s.cache.entries.filterMap fun e =>
    (keyOf nf e.2.content).map fun (hash, used) => ⟨toString e.2.memoryId, hash, used⟩

end Records

/-! ### The manager -/

/-- A server with its store and the keys it has in memory, and the tokens that
were given out. -/
structure Authority (F : Type) where
  opened : Opened F
  keys : List CachedKey
  issued : List Text

inductive ErrorCode
  | invalidArgument
  | notFound
  | internalError
  deriving DecidableEq, Repr

structure Fault where
  code : ErrorCode
  message : String
  deriving DecidableEq, Repr

def isSpace (b : UInt8) : Bool := b = 0x20 ∨ 0x09 ≤ b ∧ b ≤ 0x0D

/-- A number from the digits a string starts with, after blanks and a sign. One
with a minus sign wraps around. -/
def stoull (s : Text) : Option UInt64 :=
  let s := s.dropWhile isSpace
  let negative : Bool := s.head? = some 0x2D
  let digits := ((if negative ∨ s.head? = some 0x2B then s.tail else s)).takeWhile isDigit
  if digits = [] then none
  else if 2 ^ 64 ≤ readNat digits then none
  else some (if negative then 0 - UInt64.ofNat (readNat digits) else UInt64.ofNat (readNat digits))

inductive Event (F : Type)
  | createKey (label : Utf8Text) (random : Vector UInt8 32) (seconds : UInt64) (clock : List ℤ) (now : UInt32)
  | revokeKey (keyId : Text)
  | validateKey (token : Text) (seconds : UInt64)
  /-- Whatever else the server does with the store, and restarts. -/
  | act (a : Act F)

namespace Authority

variable {F D : Type} [Floats F] (nf : Numbers F D)

def start (c : Memory.Config F) (h : HNSWConfig F) : Authority F where
  opened := .start c h
  keys := refreshCache nf (Opened.start c h).store
  issued := []

def createKey (sha256Hex : Text → Utf8Text) (x : Authority F) (label : Utf8Text) (random : Vector UInt8 32)
    (seconds : UInt64) (clock : List ℤ)
    (now : UInt32) : Authority F × Option Text :=
  let r := keyRecord nf sha256Hex label random seconds
  match (x.opened.store.fastStore r clock now).2 with
  | .ok id =>
    ({ opened := x.opened.call (.fastStore r clock now) 0
       keys := x.keys ++ [⟨toString id, sha256Hex (fullKey random), 0⟩]
       issued := fullKey random :: x.issued }, some (fullKey random))
  -- no id was drawn, and nothing was stored
  | _ => (x, none)

/-- The value with the key marked revoked. -/
def markRevoked : Json D → Option (Json D)
  | .obj ms => some (.obj (Keyed.insertKey Field.revoked (.bool true) ms))
  | .null => some (.obj [(Field.revoked, .bool true)])
  | _ => none

def revokeKey (x : Authority F) (keyId : Text) : Authority F × Except Fault Unit :=
  match stoull keyId with
  | none => (x, .error ⟨.invalidArgument, "invalid key ID"⟩)
  | some id =>
    match x.opened.store.peek id with
    | .error e => (x, .error ⟨.notFound, e.message⟩)
    | .ok r =>
      if r.content.take CONTENT_PREFIX.length ≠ CONTENT_PREFIX then
        (x, .error ⟨.invalidArgument, "not an API key record"⟩)
      else
        match (nf.text.parse (r.content.drop CONTENT_PREFIX.length)).bind markRevoked with
        | none => (x, .error ⟨.internalError, "failed to update key"⟩)
        | some j =>
          ({ x with
             opened := x.opened.call (.updateInPlace id (CONTENT_PREFIX ++ nf.text.dump j)) 0
             keys := x.keys.filter fun k => k.id ≠ keyId }, .ok ())

def validateKey (sha256Hex : Text → Utf8Text) (x : Authority F) (token : Text) : Bool :=
  x.keys.any fun k => k.hash = sha256Hex token

/-- When the key was used last is noted in memory. -/
def noteUse (sha256Hex : Text → Utf8Text) (x : Authority F) (token : Text) (seconds : UInt64) : Authority F :=
  match x.keys.findIdx? fun k => k.hash = sha256Hex token with
  | some i => { x with keys := x.keys.modify i fun k => { k with lastUsed := seconds } }
  | none => x

def step (sha256Hex : Text → Utf8Text) (x : Authority F) : Event F → Authority F
  | .createKey label random seconds clock now => (x.createKey nf sha256Hex label random seconds clock now).1
  | .revokeKey keyId => (x.revokeKey nf keyId).1
  | .validateKey token seconds => x.noteUse sha256Hex token seconds
  | .act (.turn (.reopen file keys levels)) =>
    let opened := x.opened.act (.turn (.reopen file keys levels))
    { x with opened := opened, keys := refreshCache nf opened.store }
  | .act a => { x with opened := x.opened.act a }

end Authority

/-! ### What a content grants -/

section Contents

variable {F D : Type} {nf : Numbers F D}

theorem keyOf_content (text : Text) : keyOf nf (CONTENT_PREFIX ++ text) = (nf.text.parse text).bind (readKey nf) := by
  rw [keyOf, List.take_left, List.drop_left, if_pos rfl]

variable [Zero F]

/-- A content that was dumped says what was dumped, or nothing once it is cut. -/
theorem keyOf_dump (hnf : nf.Lawful) {ms : List (Utf8Text × Json D)} (h : WellFormed (.obj ms)) :
    keyOf nf (CONTENT_PREFIX ++ nf.text.dump (.obj ms)) = readKey nf (.obj ms) ∧
      ∀ k, keyOf nf ((CONTENT_PREFIX ++ nf.text.dump (.obj ms)).take MAX_SIZE) = some k →
        readKey nf (.obj ms) = some k := by
  have hwhole : keyOf nf (CONTENT_PREFIX ++ nf.text.dump (.obj ms)) = readKey nf (.obj ms) := by
    rw [keyOf_content, hnf.text.parse_dump h, Option.bind_some]
  refine ⟨hwhole, fun k hk => ?_⟩
  by_cases hlen : (CONTENT_PREFIX ++ nf.text.dump (.obj ms)).length ≤ MAX_SIZE
  · rw [List.take_of_length_le hlen, hwhole] at hk
    exact hk
  · have hfront : CONTENT_PREFIX.length ≤ MAX_SIZE := by decide +kernel
    rw [List.length_append] at hlen
    rw [List.take_append, List.take_of_length_le hfront, keyOf_content,
      hnf.text.parse_take_dump h (by omega)] at hk
    cases hk

omit [Zero F] in
theorem ascending_keyMeta (sha256Hex : Text → Utf8Text) (label : Utf8Text) (random : Vector UInt8 32)
    (seconds : UInt64) :
    Keyed.Ascending (keyMeta (D := D) sha256Hex label random seconds) := by
  have hkeys : [Field.createdAt, Field.keyHash, Field.keyPrefix, Field.label, Field.lastUsedAt, Field.revoked].Pairwise
      (· < ·) := by decide +kernel
  have hmap : (keyMeta (D := D) sha256Hex label random seconds).map Prod.fst =
      [Field.createdAt, Field.keyHash, Field.keyPrefix, Field.label, Field.lastUsedAt, Field.revoked] := rfl
  rw [← hmap] at hkeys
  exact List.pairwise_map.mp hkeys

omit [Zero F] in
theorem wellFormed_keyMeta (sha256Hex : Text → Utf8Text) (label : Utf8Text) (random : Vector UInt8 32)
    (seconds : UInt64) :
    WellFormed (D := D) (.obj (keyMeta sha256Hex label random seconds)) := by
  refine .obj ?_ (ascending_keyMeta sha256Hex label random seconds)
  simp only [keyMeta, List.forall_mem_cons]
  exact ⟨wellFormed_nat seconds.toNat_lt, .str _, .str _, .str _, .int (by decide), .bool _,
    fun _ h => absurd h List.not_mem_nil⟩

omit [Zero F] in
/-- A key's record says its hash. -/
theorem readKey_keyMeta (sha256Hex : Text → Utf8Text) (label : Utf8Text) (random : Vector UInt8 32) (seconds : UInt64) :
    readKey nf (.obj (keyMeta sha256Hex label random seconds)) = some (sha256Hex (fullKey random), 0) := by
  have hk := ascending_keyMeta (D := D) sha256Hex label random seconds
  have hrevoked := hk.lookup (k := Field.revoked) (v := .bool false) (by simp [keyMeta])
  have hhash := hk.lookup (k := Field.keyHash) (v := .str (sha256Hex (fullKey random))) (by simp [keyMeta])
  have hused := hk.lookup (k := Field.lastUsedAt) (v := .int 0) (by simp [keyMeta])
  simp only [readKey, valueBool, valueString, valueUInt64, hrevoked, hhash, hused, Option.bind_some, toInt,
    Option.map_some]
  rfl

omit [Zero F] in
/-- A key that is marked revoked. -/
theorem markRevoked_spec {j j' : Json D} (h : Authority.markRevoked j = some j') (hj : WellFormed j) :
    ∃ ms, j' = .obj ms ∧ WellFormed (.obj ms) ∧ readKey nf (.obj ms) = none := by
  have hnone : ∀ ms : List (Utf8Text × Json D), ms.lookup Field.revoked = some (.bool true) →
      readKey nf (.obj ms) = none := by
    intro ms hl
    rw [readKey, valueBool, hl]
    rfl
  cases hj with
  | null =>
    cases h
    refine ⟨_, rfl, .obj ?_ (List.pairwise_singleton _ _), hnone _ List.lookup_cons_self⟩
    exact List.forall_mem_singleton.mpr (.bool _)
  | obj hms hk =>
    cases h
    refine ⟨_, rfl, .obj ?_ (hk.insertKey _ _), hnone _ (Keyed.lookup_insertKey _ _ _)⟩
    intro m hm
    rcases Keyed.mem_insertKey hm with rfl | hm
    · exact .bool _
    · exact hms m hm
  | _ => cases h

end Contents

/-! ### Runs without forged contents -/

section Runs

variable {F D : Type} (nf : Numbers F D) (sha256Hex : Text → Utf8Text)

/-- No token has the hash but those that were given out, as far as the hash
tells. -/
def Backed (issued : List Text) (hash : Utf8Text) : Prop :=
  ∀ token, sha256Hex token = hash → ∃ t ∈ issued, sha256Hex t = hash

/-- If the content is a key's, whole or cut to what comes back of it, then the
hash has the property. -/
def Says (Q : Utf8Text → Prop) (content : Text) : Prop :=
  ∀ c ∈ [content, content.take MAX_SIZE], ∀ k, keyOf nf c = some k → Q k.1

/-- The call does not bring a content with the hash of a token that was not
given out. -/
def Unforged (x : Authority F) : Event F → Prop
  | .act (.turn (.call op _)) => ∀ c, op.content = some c → Says nf (Backed sha256Hex x.issued) c
  | _ => True

variable {nf} {sha256Hex} {issued issued' : List Text}

theorem Backed.mono {hash : Utf8Text} (h : Backed sha256Hex issued hash) (hsub : issued ⊆ issued') :
    Backed sha256Hex issued' hash := by
  intro token ht
  obtain ⟨t, hm, he⟩ := h token ht
  exact ⟨t, hsub hm, he⟩

theorem backed_of_mem {t : Text} (h : t ∈ issued) : Backed sha256Hex issued (sha256Hex t) := fun _ _ => ⟨t, h, rfl⟩

section Says

variable {Q Q' : Utf8Text → Prop} {c : Text}

theorem Says.mono (h : Says nf Q c) (hsub : ∀ hash, Q hash → Q' hash) : Says nf Q' c :=
  fun c hc k hk => hsub _ (h c hc k hk)

theorem Says.take (h : Says nf Q c) : Says nf Q (c.take MAX_SIZE) := by
  intro c' hc'
  have hself : c' = c.take MAX_SIZE := by
    rcases List.mem_cons.mp hc' with he | hc'
    · exact he
    · rw [List.mem_singleton.mp hc', List.take_take, Nat.min_self]
  rw [hself]
  exact h _ (by simp)

theorem says_dump [Zero F] (hnf : nf.Lawful) {ms : List (Utf8Text × Json D)} (h : WellFormed (.obj ms))
    (hk : ∀ k, readKey nf (.obj ms) = some k → Q k.1) : Says nf Q (CONTENT_PREFIX ++ nf.text.dump (.obj ms)) := by
  obtain ⟨hwhole, hcut⟩ := keyOf_dump hnf h
  intro c hc k hck
  rcases List.mem_cons.mp hc with rfl | hc
  · exact hk k (hwhole.symm.trans hck)
  · rw [List.mem_singleton.mp hc] at hck
    exact hk k (hcut k hck)

end Says

variable [Floats F]

/-- Contents are cut, and not changed by what reading changes. -/
theorem respects_says (hnf : nf.Lawful) (Q : Utf8Text → Prop) :
    Respects (wireOf nf hnf) fun (_ : UInt64) (r : MemoryRecord F) => Says nf Q r.content where
  version := fun _ r r' hv h => by
    have hcontent : r.content = r'.content := congrArg (fun r => r.content) hv
    rwa [hcontent] at h
  wire := fun _ r h => by
    show Says nf Q (clip nf r.toBody).content
    rw [(clip_fields hnf r.toBody).1]
    exact h.take

namespace Authority

/-- What every step of a run without forged contents keeps. -/
structure Inv (nf : Numbers F D) (sha256Hex : Text → Utf8Text) (hnf : nf.Lawful) (x : Authority F) : Prop where
  sound : x.opened.Sound
  wire : x.opened.store.config.wire = wireOf nf hnf
  keys : ∀ k ∈ x.keys, Backed sha256Hex x.issued k.hash
  contents : Everywhere (fun _ r => Says nf (Backed sha256Hex x.issued) r.content) x.opened.store

variable {hnf : nf.Lawful} {x : Authority F}

theorem inv_start (c : Memory.Config F) (h : HNSWConfig F) :
    Inv nf sha256Hex hnf (start nf { c with wire := wireOf nf hnf } h) where
  sound := Opened.sound_start _ _
  wire := rfl
  keys := fun _ hk => absurd hk List.not_mem_nil
  contents := everywhere_new _

/-- The store after an act that brings honest contents only. -/
theorem Inv.contents_act (h : Inv nf sha256Hex hnf x) (hsub : x.issued ⊆ issued) {a : Act F}
    (ha : ∀ op level, a = .turn (.call op level) → ∀ c, op.content = some c → Says nf (Backed sha256Hex issued) c) :
    Everywhere (fun _ r => Says nf (Backed sha256Hex issued) r.content) (x.opened.act a).store := by
  have hall : Everywhere (fun _ r => Says nf (Backed sha256Hex issued) r.content) x.opened.store :=
    ⟨fun id r hr => (h.contents.stored id r hr).mono fun _ hb => hb.mono hsub,
      fun id r hr => (h.contents.cached id r hr).mono fun _ hb => hb.mono hsub⟩
  refine Opened.everywhere_act h.sound hall (by rw [h.wire]; exact respects_says hnf _) ?_
  cases a with
  | get i now => trivial
  | turn t =>
    cases t with
    | reopen file keys levels => trivial
    | call op level =>
      intro id r hw
      rcases content_of_wrote hw with hc | ⟨r₀, hr₀, hc, -⟩
      · exact ha op level rfl _ hc
      · show Says nf (Backed sha256Hex issued) r.content
        rw [hc]
        exact hall.load hr₀

theorem Inv.wire_act (h : Inv nf sha256Hex hnf x) (a : Act F) : (x.opened.act a).store.config.wire = wireOf nf hnf := by
  rw [Opened.config_act h.sound, h.wire]

theorem Inv.createKey (h : Inv nf sha256Hex hnf x) (label : Utf8Text) (random : Vector UInt8 32) (seconds : UInt64)
    (clock : List ℤ) (now : UInt32) :
      Inv nf sha256Hex hnf (x.createKey nf sha256Hex label random seconds clock now).1 := by
  have hstore : ∀ issued, x.issued ⊆ issued → fullKey random ∈ issued →
      Everywhere (fun _ r => Says nf (Backed sha256Hex issued) r.content)
        (x.opened.act (.turn (.call (.fastStore (keyRecord nf sha256Hex label random seconds) clock now) 0))).store := by
    intro issued hsub hmem
    refine h.contents_act hsub fun op level he c hc => ?_
    cases he
    cases hc
    refine says_dump hnf (wellFormed_keyMeta sha256Hex label random seconds) fun k hk => ?_
    rw [readKey_keyMeta] at hk
    cases hk
    exact backed_of_mem hmem
  unfold Authority.createKey
  dsimp only
  split
  · refine ⟨h.sound.act (.turn (.call _ 0)), h.wire_act (.turn (.call _ 0)), fun k hk => ?_,
      hstore _ (List.subset_cons_self _ _) List.mem_cons_self⟩
    rcases List.mem_append.mp hk with hk | hk
    · exact (h.keys k hk).mono (List.subset_cons_self _ _)
    · rw [List.mem_singleton.mp hk]
      exact backed_of_mem List.mem_cons_self
  · exact h

/-- What revoking a key does, if it does anything. -/
theorem revokeKey_cases (hnf : nf.Lawful) (x : Authority F) (keyId : Text) :
    (x.revokeKey nf keyId).1 = x ∧ ¬ (x.revokeKey nf keyId).2.isOk ∨
    ∃ id r ms, stoull keyId = some id ∧ x.opened.store.peek id = .ok r ∧ WellFormed (.obj ms) ∧
      readKey nf (.obj ms) = none ∧ (x.revokeKey nf keyId) =
        ({ x with
           opened := x.opened.call (.updateInPlace id (CONTENT_PREFIX ++ nf.text.dump (.obj ms))) 0
           keys := x.keys.filter fun k => k.id ≠ keyId }, .ok ()) := by
  unfold Authority.revokeKey
  cases hid : stoull keyId with
  | none => exact .inl ⟨rfl, Bool.false_ne_true⟩
  | some id =>
    dsimp only
    cases hp : x.opened.store.peek id with
    | error e => exact .inl ⟨rfl, Bool.false_ne_true⟩
    | ok r =>
      dsimp only
      split
      · exact .inl ⟨rfl, Bool.false_ne_true⟩
      · cases hj : (nf.text.parse (r.content.drop CONTENT_PREFIX.length)).bind markRevoked with
        | none => exact .inl ⟨rfl, Bool.false_ne_true⟩
        | some j =>
          obtain ⟨j₀, hj₀, hmark⟩ := Option.bind_eq_some_iff.mp hj
          obtain ⟨ms, rfl, hwell, hnone⟩ := markRevoked_spec hmark (hnf.text.wellFormed_of_parse hj₀)
          exact .inr ⟨id, r, ms, rfl, hp, hwell, hnone, rfl⟩

theorem Inv.revokeKey (h : Inv nf sha256Hex hnf x) (keyId : Text) : Inv nf sha256Hex hnf (x.revokeKey nf keyId).1 := by
  rcases x.revokeKey_cases hnf keyId with ⟨he, -⟩ | ⟨id, r, ms, -, -, hwell, hnone, he⟩
  · rw [he]
    exact h
  · rw [he]
    refine ⟨h.sound.act (.turn (.call _ 0)), h.wire_act (.turn (.call _ 0)),
      fun k hk => h.keys k (List.mem_of_mem_filter hk), ?_⟩
    refine h.contents_act (List.Subset.refl _) (a := .turn (.call _ 0)) fun op level ho c hc => ?_
    cases ho
    cases hc
    refine says_dump hnf hwell fun k hk => ?_
    rw [hnone] at hk
    cases hk

omit [Floats F] in
/-- The keys that are collected at the start are those of cached records. -/
theorem mem_refreshCache {s : MemoryStore F} {k : CachedKey} (hk : k ∈ refreshCache nf s) :
    ∃ id r used, s.cache.lookup id = some r ∧ keyOf nf r.content = some (k.hash, used) ∧
      k.id = toString r.memoryId := by
  obtain ⟨⟨id, r⟩, hmem, hkey⟩ := List.mem_filterMap.mp hk
  obtain ⟨⟨hash, used⟩, hof, rfl⟩ := Option.map_eq_some_iff.mp hkey
  exact ⟨id, r, used, AList.mem_lookup_iff.mpr hmem, hof, rfl⟩

omit [Floats F] in
/-- Noting a use changes no key but for when it was used. -/
theorem mem_noteUse {token : Text} {seconds : UInt64} {k : CachedKey}
    (hk : k ∈ (x.noteUse sha256Hex token seconds).keys) :
    ∃ k₀ ∈ x.keys, k₀.id = k.id ∧ k₀.hash = k.hash := by
  unfold noteUse at hk
  split at hk
  · obtain ⟨j, hj⟩ := List.mem_iff_getElem?.mp hk
    rw [List.getElem?_modify] at hj
    obtain ⟨k₀, hk₀, he⟩ := Option.map_eq_some_iff.mp hj
    refine ⟨k₀, List.mem_of_getElem? hk₀, ?_⟩
    rw [← he]
    split <;> exact ⟨rfl, rfl⟩
  · exact ⟨k, hk, rfl, rfl⟩

omit [Floats F] in
theorem opened_noteUse (x : Authority F) (token : Text) (seconds : UInt64) :
    (x.noteUse sha256Hex token seconds).opened = x.opened ∧ (x.noteUse sha256Hex token seconds).issued = x.issued := by
  unfold noteUse
  split <;> exact ⟨rfl, rfl⟩

/-- An act changes the keys only by opening the store again. -/
theorem step_act (x : Authority F) (a : Act F) : (x.step nf sha256Hex (.act a)).opened = x.opened.act a ∧
    (x.step nf sha256Hex (.act a)).issued = x.issued ∧
    ((x.step nf sha256Hex (.act a)).keys = x.keys ∨
      (∃ file keys levels, a = .turn (.reopen file keys levels)) ∧
        (x.step nf sha256Hex (.act a)).keys = refreshCache nf (x.opened.act a).store) := by
  cases a with
  | get i now => exact ⟨rfl, rfl, .inl rfl⟩
  | turn t =>
    cases t with
    | call op level => exact ⟨rfl, rfl, .inl rfl⟩
    | reopen file keys levels => exact ⟨rfl, rfl, .inr ⟨⟨file, keys, levels, rfl⟩, rfl⟩⟩

theorem Inv.act (h : Inv nf sha256Hex hnf x) {a : Act F} (hu : Unforged nf sha256Hex x (.act a)) :
    Inv nf sha256Hex hnf (x.step nf sha256Hex (.act a)) := by
  obtain ⟨hopened, hissued, hkeys⟩ := x.step_act a
  have hall : Everywhere (fun _ r => Says nf (Backed sha256Hex x.issued) r.content) (x.opened.act a).store := by
    refine h.contents_act (List.Subset.refl _) fun op level he c hc => ?_
    subst he
    exact hu c hc
  refine ⟨hopened ▸ h.sound.act a, ?_, fun k hk => ?_, ?_⟩
  · rw [hopened]
    exact h.wire_act a
  · rw [hissued]
    rcases hkeys with he | ⟨-, he⟩
    · rw [he] at hk
      exact h.keys k hk
    · rw [he] at hk
      obtain ⟨id, r, used, hc, hof, -⟩ := mem_refreshCache hk
      exact hall.cached id r hc _ List.mem_cons_self _ hof
  · rw [hopened, hissued]
    exact hall

theorem Inv.step (h : Inv nf sha256Hex hnf x) {e : Event F} (hu : Unforged nf sha256Hex x e) :
    Inv nf sha256Hex hnf (x.step nf sha256Hex e) := by
  cases e with
  | createKey label random seconds clock now => exact h.createKey label random seconds clock now
  | revokeKey keyId => exact h.revokeKey keyId
  | validateKey token seconds =>
    obtain ⟨hopened, hissued⟩ := x.opened_noteUse token seconds
    show Inv nf sha256Hex hnf (x.noteUse sha256Hex token seconds)
    refine ⟨hopened ▸ h.sound, hopened ▸ h.wire, fun k hk => ?_, ?_⟩
    · obtain ⟨k₀, hk₀, -, hhash⟩ := mem_noteUse hk
      rw [hissued, ← hhash]
      exact h.keys k₀ hk₀
    · rw [hopened, hissued]
      exact h.contents
  | act a => exact h.act hu

/-- **A token is accepted only if it was given out**, in every run in which no
call brings a content with the hash of a token that was not. -/
theorem issued_of_validateKey (hnf : nf.Lawful) (c : Memory.Config F) (h : HNSWConfig F) (events : List (Event F))
    (hrun : Along (step nf sha256Hex) (Unforged nf sha256Hex) (start nf { c with wire := wireOf nf hnf } h) events) (token : Text)
    (hinj : Set.InjOn sha256Hex
      {t | t = token ∨ t ∈ (run (step nf sha256Hex) (start nf { c with wire := wireOf nf hnf } h) events).issued})
    (hv : (run (step nf sha256Hex) (start nf { c with wire := wireOf nf hnf } h) events).validateKey sha256Hex token = true) :
    token ∈ (run (step nf sha256Hex) (start nf { c with wire := wireOf nf hnf } h) events).issued := by
  have hinv := Run.run_inv (step nf sha256Hex) (I := fun _ x => Inv nf sha256Hex hnf x) (fun _ x e hx hu =>
    hx.step hu) events [] _
    (inv_start c h) hrun
  obtain ⟨k, hk, hhash⟩ := List.any_eq_true.mp hv
  obtain ⟨t, ht, he⟩ := hinv.keys k hk token (of_decide_eq_true hhash).symm
  have hsame : t = token := hinj (.inr ht) (.inl rfl) (he.trans (of_decide_eq_true hhash))
  exact hsame ▸ ht

end Authority

end Runs

/-! ### A server with one key -/

/-- The hash as a string of hexadecimal digits. -/
def sha256 (input : Text) : Utf8Text := ⟨Sha256.hex input, Utf8.valid_of_ascii (Sha256.hex_lt input)⟩

namespace Authority

def fresh : Authority UInt32 := start bits fourCached plain

def zeros : Vector UInt8 32 := Vector.replicate 32 0

def ops : Utf8Text := ⟨Utf8.bytes "ops", by decide +kernel⟩

/-- A key is created, something else is stored, and the server starts again. -/
def keyAndNote : List (Event UInt32) :=
  [.createKey ops zeros 100 [1735689600001] 7, .act (.turn (.call (.fastStore note [] 8) 0)),
   .act (.turn (.reopen none [4194304, 1] fun _ => 0))]

theorem issued_zeros : fullKey zeros ∈ (run (step bits sha256) fresh keyAndNote).issued := by
  have hnote : ∀ c ∈ [note.content, note.content.take MAX_SIZE], (keyOf bits c).isNone = true := by decide +kernel
  have hissued : (run (step bits sha256) fresh keyAndNote).issued = [fullKey zeros] := by decide +kernel
  refine issued_of_validateKey lawful_bits fourCached plain keyAndNote ⟨trivial, ?_, trivial,
    trivial⟩ (fullKey zeros) ?_
    (by decide +kernel)
  · intro c hc c' hc' k hk
    cases hc
    have hnone := hnote c' hc'
    rw [hk] at hnone
    cases hnone
  · intro t ht t' ht' _
    have hsame : ∀ t, t = fullKey zeros ∨ t ∈ (run (step bits sha256) fresh keyAndNote).issued → t = fullKey zeros := by
      intro t ht
      rcases ht with ht | ht
      · exact ht
      · rw [hissued] at ht
        exact List.mem_singleton.mp ht
    rw [hsame t ht, hsame t' ht']

def evil : Text := Utf8.bytes "amk_evil"

/-- What a user says to the default agent: the marker and the hash of a token of
their own. -/
def forgedRequest : Capture.Request where
  content := CONTENT_PREFIX ++ bits.text.dump (.obj [(Field.keyHash, .str (sha256 evil))])
  agentId := Utf8.bytes "default"
  userId := Utf8.bytes "eve"

/-- It is stored, and the server starts again. -/
def capturedForged : List (Event UInt32) :=
  [.act (.turn (.call (.fastStore (Capture.newRecord 0x3F000000 forgedRequest) [1735689600001] 7) 0)),
   .act (.turn (.reopen none [4194304] fun _ => 0))]

/-- The text is neither noise nor a request to forget. No key was ever created,
and the token is accepted. -/
theorem forged_accepted : Capture.isTransientContent .silent forgedRequest.content = false ∧
    Capture.isForgetRequest .silent forgedRequest.content = false ∧
    (run (step bits sha256) fresh capturedForged).validateKey sha256 evil = true ∧
    (run (step bits sha256) fresh capturedForged).issued = [] :=
  ⟨by decide +kernel, by decide +kernel, by decide +kernel, rfl⟩

end Authority

end Auth
end Amind
