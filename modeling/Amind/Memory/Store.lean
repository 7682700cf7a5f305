/-
# The memory store

A store keeps its records in the storage engine and the most used of them in a
cache. Writers write through: they change the cached record, if there is one,
and put it into the storage engine. Reading a record changes its access count,
its last access and maybe its tier in the cache only; the id is marked dirty
and written back by the next flush or eviction. Each call here is one that
holds the store's lock from start to end; `get` without a cached record does
not, its parts are `getRead` and `getInsert`.

The storage engine is a map here, what it answers for each id: a put changes it
at the id, and a record in it is what comes back of the one that was put
(`Config.wire`). By itself the engine may come to answer otherwise, when it
merges tables in the background or is closed and opened again: `settle` is the
store after that. Runs have it between their calls, and say of it that the
answers stay (`Run.Still`); `Memory.Backing` says when they do.
-/
import Mathlib.Data.List.AList
import Mathlib.Data.List.Sort
import Mathlib.Data.Prod.Lex
import Amind.Core.MemoryRecord
import Amind.Core.Snowflake
import Amind.Lib.Keyed

namespace Amind
namespace Memory

open Amind.Core

/-- What the store was configured with. -/
structure Config (F : Type) where
  embeddingDim : ℕ
  promotionWorkingAccessCount : UInt32
  promotionWorkingImportance : F
  promotionShortAccessCount : UInt32
  promotionShortImportance : F
  maxCacheSize : ℕ
  wire : Wire F := .whole

/-- The error of a call that finds no record. -/
structure NotFound where
  message : String
  deriving DecidableEq, Repr

/-- What a call that stores a new record comes to: it draws an id from the
generator, which may throw or still wait for the clock. -/
inductive Stored
  | ok (id : UInt64)
  | error (e : NotFound)
  | thrown
  | waiting
  deriving DecidableEq, Repr

def Stored.id : Stored → Option UInt64
  | .ok id => some id
  | _ => none

/-- A call that could not draw an id. -/
def Stored.ofNextId : NextId → Stored
  | .returned id _ => .ok id
  | .thrown => .thrown
  | .waiting => .waiting

/-- What the storage engine answers, for each id. -/
abbrev Answers (F : Type) : Type := UInt64 → Option (MemoryRecord F)

structure MemoryStore (F : Type) where
  config : Config F
  lsm : Answers F
  /-- The ids that are active in the vector index. -/
  hnsw : UInt64 → Bool
  idGen : SnowflakeGenerator
  cache : AList fun _ : UInt64 => MemoryRecord F
  dirtyIds : List UInt64

namespace MemoryStore

variable {F : Type}

/-- The store after the storage engine has come to answer so. -/
def settle (s : MemoryStore F) (answers : Answers F) : MemoryStore F := { s with lsm := answers }

theorem settle_lsm (s : MemoryStore F) : s.settle s.lsm = s := rfl

/-- A store on a new directory. -/
def new (config : Config F) : MemoryStore F where
  config := config
  lsm := fun _ => none
  hnsw := fun _ => false
  idGen := SnowflakeGenerator.make 0 (Nat.zero_le _)
  cache := ∅
  dirtyIds := []

/-! ### Parts -/

/-- Put a record into the storage engine. -/
def putRaw (s : MemoryStore F) (id : UInt64) (r : MemoryRecord F) : MemoryStore F :=
  { s with lsm := Function.update s.lsm id (some (r.wire s.config.wire)) }

/-- Put a record into the cache. -/
def cachePut (s : MemoryStore F) (id : UInt64) (r : MemoryRecord F) : MemoryStore F :=
  { s with cache := s.cache.insert id r }

/-- Insert a vector. One of another dimension is refused. -/
def hnswInsert (s : MemoryStore F) (id : UInt64) (v : List F) : MemoryStore F :=
  if v.length = s.config.embeddingDim then { s with hnsw := Function.update s.hnsw id true } else s

def softDelete (s : MemoryStore F) (id : UInt64) : MemoryStore F :=
  { s with hnsw := Function.update s.hnsw id false }

def markDirty (s : MemoryStore F) (id : UInt64) : MemoryStore F := { s with dirtyIds := s.dirtyIds.insert id }

/-- Write the dirty records that are cached back. -/
def flushDirtyRecords (s : MemoryStore F) : MemoryStore F :=
  { s.dirtyIds.foldl (fun s id => match s.cache.lookup id with | some r => s.putRaw id r | none => s) s with
    dirtyIds := [] }

/-- The cached ids in the order in which they are given up: those of removed
records and of the least accessed ones first. -/
def candidates (s : MemoryStore F) : List (UInt32 × UInt64) :=
  (s.cache.entries.map fun e => (if e.2.phase = .tombstone then 0 else e.2.accessCount, e.1)).insertionSort
    fun a b => a.1 < b.1 ∨ a.1 = b.1 ∧ a.2 ≤ b.2

/-- Give up a fifth of a cache that is too large. -/
def evictIfNeeded (s : MemoryStore F) : MemoryStore F :=
  if s.cache.keys.length ≤ s.config.maxCacheSize then s
  else
    let s := s.flushDirtyRecords
    { s with cache := (s.candidates.take (s.cache.keys.length / 5)).foldl (fun c e => c.erase e.2) s.cache }

/-- The record as the store has it: the cached one, or else the stored one. -/
def load (s : MemoryStore F) (id : UInt64) : Option (MemoryRecord F) := (s.cache.lookup id).or (s.lsm id)

/-! ### Reading -/

def contains (s : MemoryStore F) (id : UInt64) : Bool := (s.cache.lookup id).isSome || (s.lsm id).isSome

def notFound (id : UInt64) : NotFound := ⟨"memory not found: " ++ toString id.toNat⟩

/-- Read a record, with no side effect. -/
def peek (s : MemoryStore F) (id : UInt64) : Except NotFound (MemoryRecord F) :=
  match s.load id with
  | some r => .ok r
  | none => .error (notFound id)

/-- Count an access. -/
def touch (r : MemoryRecord F) (now : UInt32) : MemoryRecord F :=
  { r with accessCount := r.accessCount + 1, lastAccessed := now }

/-- What `get` reads from the storage engine when the record is not cached. -/
def getRead (s : MemoryStore F) (id : UInt64) (now : UInt32) : Option (MemoryRecord F) :=
  (s.lsm id).map fun r => touch r now

section Promotion

variable [Floats F]

/-- Move a record up a tier if it is used enough. -/
def tryPromote (c : Config F) (r : MemoryRecord F) : MemoryRecord F :=
  match r.tier with
  | .working =>
    if c.promotionWorkingAccessCount ≤ r.accessCount ∨ c.promotionWorkingImportance ≤ r.importance then
      { r with tier := .shortTerm }
    else r
  | .shortTerm =>
    if c.promotionShortAccessCount ≤ r.accessCount ∧ c.promotionShortImportance ≤ r.importance then
      { r with tier := .longTerm }
    else r
  | .longTerm => r

/-- `get` of a record that is cached. -/
def getCached (s : MemoryStore F) (id : UInt64) (now : UInt32) : Option (MemoryStore F × MemoryRecord F) :=
  (s.cache.lookup id).map fun r =>
    let r := tryPromote s.config (touch r now)
    ((s.cachePut id r).markDirty id, r)

/-- `get` puts the record it read into the cache, unless one is there by now. -/
def getInsert (s : MemoryStore F) (id : UInt64) (r : MemoryRecord F) (now : UInt32) :
    MemoryStore F × MemoryRecord F :=
  let r := match s.cache.lookup id with
    | some r' => tryPromote s.config (touch r' now)
    | none => tryPromote s.config r
  ((s.cachePut id r).markDirty id, r)

end Promotion

/-! ### Writing -/

/-- The record as it is stored: with its times set and its embedding flagged. -/
def prepared (r : MemoryRecord F) (now : UInt32) : MemoryRecord F :=
  let r := if r.createdAt = 0 then { r with createdAt := now, lastAccessed := now } else r
  if r.embedding ≠ [] then { r with flags := r.flags ||| RecordFlags.HAS_EMBEDDING } else r

/-- Store a record under its id. -/
def storeRecord (s : MemoryStore F) (r : MemoryRecord F) : MemoryStore F :=
  let s := if r.embedding ≠ [] then s.hnswInsert r.memoryId r.embedding else s
  ((s.putRaw r.memoryId r).cachePut r.memoryId r).evictIfNeeded

/-- Store a record, under a new id if it has none. `clock` are the readings
`nextId` sees. -/
def fastStore (s : MemoryStore F) (r : MemoryRecord F) (clock : List ℤ) (now : UInt32) : MemoryStore F × Stored :=
  if r.memoryId = 0 then
    match s.idGen.nextId clock with
    | .returned id g => ({ s with idGen := g }.storeRecord (prepared { r with memoryId := id } now), .ok id)
    | o => (s, .ofNextId o)
  else (s.storeRecord (prepared r now), .ok r.memoryId)

/-- The version of a record that replaces it. -/
def newVersion (old : MemoryRecord F) (newId : UInt64) (newContent : Text) (newEmbedding : List F) (now : UInt32) :
    MemoryRecord F :=
  let r := { old.createNewVersion newId now with content := newContent }
  if newEmbedding ≠ [] then { r with embedding := newEmbedding } else r

/-- Store a new version of a record and mark the old one. -/
def update (s : MemoryStore F) (id : UInt64) (newContent : Text) (newEmbedding : List F) (clock : List ℤ)
    (now : UInt32) : MemoryStore F × Stored :=
  match s.load id with
  | none => (s, .error (notFound id))
  | some old =>
    match s.idGen.nextId clock with
    | .returned newId g =>
      let r := newVersion old newId newContent newEmbedding now
      let s := ({ s with idGen := g }.putRaw id old.markVersioned).cachePut id old.markVersioned
      let s := if r.embedding ≠ [] then s.hnswInsert newId r.embedding else s
      ((s.putRaw newId r).cachePut newId r, .ok newId)
    | o => (s, .ofNextId o)

/-- Mark a record removed. -/
def remove (s : MemoryStore F) (id : UInt64) : MemoryStore F × Except NotFound Unit :=
  let s := s.softDelete id
  match s.cache.lookup id with
  | some r => ({ s.putRaw id r.markTombstone with cache := s.cache.erase id }, .ok ())
  | none =>
    match s.lsm id with
    | some r => (s.putRaw id r.markTombstone, .ok ())
    | none => (s, .error ⟨"memory not found"⟩)

def archived (r : MemoryRecord F) : MemoryRecord F := { r with phase := .archived }

/-- Archive a record. One that is not cached is not cached then either. -/
def archive (s : MemoryStore F) (id : UInt64) : MemoryStore F × Except NotFound Unit :=
  let s := s.softDelete id
  match s.cache.lookup id with
  | some r => ((s.cachePut id (archived r)).putRaw id (archived r), .ok ())
  | none =>
    match s.lsm id with
    | some r => (s.putRaw id (archived r), .ok ())
    | none => (s, .error ⟨"memory not found"⟩)

/-- Change a record and cache it. -/
def modify (s : MemoryStore F) (id : UInt64) (f : MemoryRecord F → MemoryRecord F) : MemoryStore F :=
  match s.load id with
  | some r => (s.cachePut id (f r)).putRaw id (f r)
  | none => s

def withEmbedding (embedding : List F) (r : MemoryRecord F) : MemoryRecord F :=
  { r with embedding := embedding, flags := r.flags ||| RecordFlags.HAS_EMBEDDING }

/-- Set the embedding of a record and insert it into the index. -/
def setEmbedding (s : MemoryStore F) (id : UInt64) (embedding : List F) : MemoryStore F :=
  let s := if (s.load id).isSome then s.hnswInsert id embedding else s
  s.modify id (withEmbedding embedding)

/-- Change the content of a cached record. -/
def updateInPlace (s : MemoryStore F) (id : UInt64) (newContent : Text) : MemoryStore F :=
  if (s.cache.lookup id).isSome then s.modify id fun r => { r with content := newContent } else s

def flush (s : MemoryStore F) : MemoryStore F := s.flushDirtyRecords

section Boost

variable [Floats F]

def clamp (v lo hi : F) : F := if v < lo then lo else if hi < v then hi else v

def boosted (delta : F) (r : MemoryRecord F) : MemoryRecord F :=
  { r with importance := clamp (r.importance + delta) 0 1 }

/-- Raise the importance of a record that is alive. -/
def boostImportance (s : MemoryStore F) (id : UInt64) (delta : F) : MemoryStore F :=
  if (s.load id).any MemoryRecord.isAlive then s.modify id (boosted delta) else s

end Boost

end MemoryStore

/-! ### Calls -/

/-- The calls that hold the lock from start to end. -/
inductive Op (F : Type)
  | fastStore (r : MemoryRecord F) (clock : List ℤ) (now : UInt32)
  | update (id : UInt64) (newContent : Text) (newEmbedding : List F) (clock : List ℤ) (now : UInt32)
  | remove (id : UInt64)
  | archive (id : UInt64)
  | setEmbedding (id : UInt64) (embedding : List F)
  | boostImportance (id : UInt64) (delta : F)
  | updateInPlace (id : UInt64) (newContent : Text)
  | flush
  | getCached (id : UInt64) (now : UInt32)

/-- The call stores new records under ids it draws. -/
def Op.Generates {F : Type} : Op F → Prop
  | .fastStore r _ _ => r.memoryId = 0
  | _ => True

instance {F : Type} : ∀ op : Op F, Decidable op.Generates
  | .fastStore r _ _ => inferInstanceAs (Decidable (r.memoryId = 0))
  | .update _ _ _ _ _ | .remove _ | .archive _ | .setEmbedding _ _ | .boostImportance _ _ | .updateInPlace _ _
  | .flush | .getCached _ _ => inferInstanceAs (Decidable True)

/-- The id a call removes. -/
def Op.removes {F : Type} : Op F → Option UInt64
  | .remove id => some id
  | _ => none

/-- The id of the record a call changes. Counting an access is no change. -/
def Op.target {F : Type} : Op F → Option UInt64
  | .update id _ _ _ _ => some id
  | .remove id => some id
  | .archive id => some id
  | .setEmbedding id _ => some id
  | .boostImportance id _ => some id
  | .updateInPlace id _ => some id
  | .fastStore _ _ _ => none
  | .flush => none
  | .getCached _ _ => none

namespace MemoryStore

variable {F : Type} [Floats F]

/-- One call. -/
def exec (s : MemoryStore F) : Op F → MemoryStore F
  | .fastStore r clock now => (s.fastStore r clock now).1
  | .update id c v clock now => (s.update id c v clock now).1
  | .remove id => (s.remove id).1
  | .archive id => (s.archive id).1
  | .setEmbedding id v => s.setEmbedding id v
  | .boostImportance id delta => s.boostImportance id delta
  | .updateInPlace id c => s.updateInPlace id c
  | .flush => s.flush
  | .getCached id now => ((s.getCached id now).map (·.1)).getD s

/-- The id under which a call stores a new record. -/
def created (s : MemoryStore F) : Op F → Option UInt64
  | .fastStore r clock now => (s.fastStore r clock now).2.id
  | .update id c v clock now => (s.update id c v clock now).2.id
  | _ => none

/-- The call changes the record of this id, or stores one under it. -/
def Names (s : MemoryStore F) (op : Op F) (id : UInt64) : Prop := op.target = some id ∨ s.created op = some id

instance (s : MemoryStore F) (op : Op F) (id : UInt64) : Decidable (s.Names op id) :=
  inferInstanceAs (Decidable (op.target = some id ∨ s.created op = some id))

/-- The records a call writes, in order. -/
def wrote (s : MemoryStore F) : Op F → List (UInt64 × MemoryRecord F)
  | .fastStore r clock now =>
    (s.fastStore r clock now).2.id.toList.map fun id => (id, prepared { r with memoryId := id } now)
  | .update id c v clock now =>
    (s.load id).toList.flatMap fun old => (s.update id c v clock now).2.id.toList.flatMap fun newId =>
      [(id, old.markVersioned), (newId, newVersion old newId c v now)]
  | .remove id => (s.load id).toList.map fun r => (id, r.markTombstone)
  | .archive id => (s.load id).toList.map fun r => (id, archived r)
  | .setEmbedding id v => (s.load id).toList.map fun r => (id, withEmbedding v r)
  | .boostImportance id delta =>
    if (s.load id).any MemoryRecord.isAlive then (s.load id).toList.map fun r => (id, boosted delta r) else []
  | .updateInPlace id c =>
    if (s.cache.lookup id).isSome then (s.load id).toList.map fun r => (id, { r with content := c }) else []
  | .flush => []
  | .getCached _ _ => []

end MemoryStore

end Memory
end Amind
