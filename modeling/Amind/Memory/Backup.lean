/-
# Exporting a store and importing it

The exporter writes seventeen fields of a record, and its embedding if there is
one; the importer reads them back and takes defaults for the rest: the layer,
what the record was derived from and by what, what the gate decided, the score
of its confidence and what the user gave. A phase it has no name for is read as
active, and every embedding that fits is inserted into the index, whatever the
phase.

`restored` is what a line is read as, if it is read at all (`importRecord_export`).
`backup_roundTrip_iff` says for which stores an import of the export into a new store
has every exported record as it was and finds none that was not found before.
-/
import Amind.Memory.Enumerate
import Amind.Memory.Import

namespace Amind
namespace Memory

open Amind.Core Amind.Core.WireFormat Amind.Vector Json
open Run (run Along)

section Lines

variable {F D : Type} [Floats F] (nf : Numbers F D) (half : F)

/-- What the line of a record is read as. -/
def restored (r : MemoryRecord F) : MemoryRecord F :=
  { MemoryRecord.zero with
    memoryId := r.memoryId
    content := r.content
    agentId := r.agentId
    userId := r.userId
    scope := r.scope
    memoryType := r.memoryType
    tier := r.tier
    importance := r.importance
    confidenceScore := half
    memVersion := r.memVersion
    parentId := r.parentId
    createdAt := r.createdAt
    lastAccessed := r.lastAccessed
    accessCount := r.accessCount
    sourceTurn := r.sourceTurn
    flags := r.flags
    phase := if r.phase = .invalidated then .active else r.phase
    confidenceLevel := r.confidenceLevel
    embedding := r.embedding }

/-- Every number of the record that is exported is finite. One that is not is
exported as null, and null is no number. -/
def Finite (r : MemoryRecord F) : Prop := (nf.widen r.importance).isSome ∧ ∀ x ∈ r.embedding, (nf.widen x).isSome

instance (r : MemoryRecord F) : Decidable (Finite nf r) :=
  have := List.decidableBAll (fun x => (nf.widen x).isSome = true) r.embedding
  inferInstanceAs (Decidable (_ ∧ _))

theorem scopeFromString_toString (s : MemoryScope) : scopeFromString (scopeToString s).val = s := by
  cases s <;> decide

theorem memoryTypeFromString_toString (t : MemoryType) : memoryTypeFromString (memoryTypeToString t).val = t := by
  cases t <;> decide

theorem memoryTierFromString_toString (t : MemoryTier) : memoryTierFromString (memoryTierToString t).val = t := by
  cases t <;> decide

theorem confidenceFromString_toString (c : Confidence) : confidenceFromString (confidenceToString c).val = c := by
  cases c <;> decide

/-- Every phase but one has a name the importer knows. -/
theorem phaseFromString_toString (p : MemoryPhase) :
    phaseFromString (phaseToString p).val = if p = .invalidated then .active else p := by
  cases p <;> decide

theorem toFloat_ofFloat {nf : Numbers F D} (hnf : nf.Lawful) (x : F) :
    toFloat nf (ofFloat nf x) = if (nf.widen x).isSome then some x else none := by
  unfold ofFloat
  cases h : nf.widen x with
  | none => rfl
  | some d =>
    show some (nf.narrow d) = some x
    rw [hnf.narrow_widen x d h]

theorem mapM_toFloat {nf : Numbers F D} (hnf : nf.Lawful) (xs : List F) :
    (xs.map (ofFloat nf)).mapM (toFloat nf) = if ∀ x ∈ xs, (nf.widen x).isSome then some xs else none := by
  induction xs with
  | nil => rfl
  | cons x xs ih =>
    rw [List.map_cons, List.mapM_cons, ih, toFloat_ofFloat hnf]
    by_cases hx : (nf.widen x).isSome = true
    · by_cases hxs : ∀ y ∈ xs, (nf.widen y).isSome = true
      · have hall : ∀ y ∈ x :: xs, (nf.widen y).isSome = true := List.forall_mem_cons.mpr ⟨hx, hxs⟩
        rw [if_pos hx, if_pos hxs, if_pos hall]
        rfl
      · have hall : ¬ ∀ y ∈ x :: xs, (nf.widen y).isSome = true := fun h => hxs (List.forall_mem_cons.mp h).2
        rw [if_pos hx, if_neg hxs, if_neg hall]
        rfl
    · have hall : ¬ ∀ y ∈ x :: xs, (nf.widen y).isSome = true := fun h => hx (List.forall_mem_cons.mp h).1
      rw [if_neg hx, if_neg hall]
      rfl

/-! ### One line -/

theorem toStr_eq_some {t : Text} {v : Json D} (h : toStr t = some v) :
    ∃ ht : Utf8.valid t = true, v = .str ⟨t, ht⟩ := by
  unfold toStr at h
  split at h
  · next ht => exact ⟨ht, (Option.some.inj h).symm⟩
  · cases h

/-- The members of a record that is exported. -/
def exported (r : MemoryRecord F) (content agentId userId : Utf8Text) : List (Utf8Text × Json D) :=
  [(Utf8.lit "memory_id", .int r.memoryId.toNat),
    (Utf8.lit "content", .str content),
    (Utf8.lit "agent_id", .str agentId),
    (Utf8.lit "user_id", .str userId),
    (Utf8.lit "scope", .str (scopeToString r.scope)),
    (Utf8.lit "memory_type", .str (memoryTypeToString r.memoryType)),
    (Utf8.lit "tier", .str (memoryTierToString r.tier)),
    (Utf8.lit "phase", .str (phaseToString r.phase)),
    (Utf8.lit "confidence", .str (confidenceToString r.confidenceLevel)),
    (Utf8.lit "importance", ofFloat nf r.importance),
    (Utf8.lit "version", .int r.memVersion.toNat),
    (Utf8.lit "parent_id", .int r.parentId.toNat),
    (Utf8.lit "created_at", .int r.createdAt.toNat),
    (Utf8.lit "last_accessed", .int r.lastAccessed.toNat),
    (Utf8.lit "access_count", .int r.accessCount.toNat),
    (Utf8.lit "source_turn", .int r.sourceTurn.toNat),
    (Utf8.lit "flags", .int r.flags.toNat)] ++
  if r.embedding = [] then [] else [(Utf8.lit "embedding", .arr (r.embedding.map (ofFloat nf)))]

omit [Floats F] in
/-- A record is exported if its texts are well formed. -/
theorem exportRecord_eq_some {r : MemoryRecord F} {j : Json D} : exportRecord nf r = some j ↔
    ∃ (hc : Utf8.valid r.content = true) (ha : Utf8.valid r.agentId = true) (hu : Utf8.valid r.userId = true),
      j = .obj (Keyed.ofPairs (exported nf r ⟨_, hc⟩ ⟨_, ha⟩ ⟨_, hu⟩)) := by
  constructor
  · intro h
    unfold exportRecord at h
    obtain ⟨content, hcontent, h⟩ := Option.bind_eq_some_iff.mp h
    obtain ⟨agentId, hagent, h⟩ := Option.bind_eq_some_iff.mp h
    obtain ⟨userId, huser, h⟩ := Option.bind_eq_some_iff.mp h
    obtain ⟨hc, rfl⟩ := toStr_eq_some hcontent
    obtain ⟨ha, rfl⟩ := toStr_eq_some hagent
    obtain ⟨hu, rfl⟩ := toStr_eq_some huser
    exact ⟨hc, ha, hu, (Option.some.inj h).symm⟩
  · rintro ⟨hc, ha, hu, rfl⟩
    unfold exportRecord toStr
    rw [dif_pos hc, dif_pos ha, dif_pos hu]
    rfl

omit [Floats F] in
theorem nodup_exported (r : MemoryRecord F) (content agentId userId : Utf8Text) :
    ((exported nf r content agentId userId).map Prod.fst).Nodup := by
  unfold exported
  split
  · show ([Utf8.lit "memory_id", Utf8.lit "content", Utf8.lit "agent_id", Utf8.lit "user_id", Utf8.lit "scope",
      Utf8.lit "memory_type", Utf8.lit "tier", Utf8.lit "phase", Utf8.lit "confidence", Utf8.lit "importance",
      Utf8.lit "version", Utf8.lit "parent_id", Utf8.lit "created_at", Utf8.lit "last_accessed",
      Utf8.lit "access_count", Utf8.lit "source_turn", Utf8.lit "flags"] : List Utf8Text).Nodup
    decide
  · show ([Utf8.lit "memory_id", Utf8.lit "content", Utf8.lit "agent_id", Utf8.lit "user_id", Utf8.lit "scope",
      Utf8.lit "memory_type", Utf8.lit "tier", Utf8.lit "phase", Utf8.lit "confidence", Utf8.lit "importance",
      Utf8.lit "version", Utf8.lit "parent_id", Utf8.lit "created_at", Utf8.lit "last_accessed",
      Utf8.lit "access_count", Utf8.lit "source_turn", Utf8.lit "flags", Utf8.lit "embedding"] : List Utf8Text).Nodup
    decide

/-- The embedding is read back, if it is finite. -/
theorem getEmbedding_exported (hnf : nf.Lawful) (r : MemoryRecord F) (content agentId userId : Utf8Text) :
    getEmbedding nf (.obj (Keyed.ofPairs (exported nf r content agentId userId))) =
      if ∀ x ∈ r.embedding, (nf.widen x).isSome then some r.embedding else none := by
  unfold getEmbedding find
  by_cases he : r.embedding = []
  · have hnone : ∀ e ∈ exported nf r content agentId userId, e.1 ≠ Utf8.lit "embedding" := by
      unfold exported
      rw [if_pos he, List.append_nil]
      intro e hm
      have hkey := List.mem_map_of_mem (f := Prod.fst) hm
      intro hk
      rw [hk] at hkey
      revert hkey
      show Utf8.lit "embedding" ∈ ([Utf8.lit "memory_id", Utf8.lit "content", Utf8.lit "agent_id", Utf8.lit "user_id",
        Utf8.lit "scope", Utf8.lit "memory_type", Utf8.lit "tier", Utf8.lit "phase", Utf8.lit "confidence",
        Utf8.lit "importance", Utf8.lit "version", Utf8.lit "parent_id", Utf8.lit "created_at",
        Utf8.lit "last_accessed", Utf8.lit "access_count", Utf8.lit "source_turn", Utf8.lit "flags"] :
        List Utf8Text) → False
      decide
    dsimp only
    rw [Keyed.lookup_ofPairs_none hnone, he, if_pos fun x hx => absurd hx List.not_mem_nil]
  · have hmem : (Utf8.lit "embedding", .arr (r.embedding.map (ofFloat nf))) ∈ exported nf r content agentId userId := by
      unfold exported
      rw [if_neg he]
      exact List.mem_append_right _ (List.mem_singleton_self _)
    dsimp only
    rw [Keyed.lookup_ofPairs (nodup_exported nf r _ _ _) hmem]
    exact mapM_toFloat hnf r.embedding

/-- **A line is read as the record restored**, if its numbers are finite. -/
theorem importRecord_export (hnf : nf.Lawful) {r : MemoryRecord F} {j : Json D} (h : exportRecord nf r = some j) :
    importRecord nf half j = if Finite nf r then some (restored half r) else none := by
  obtain ⟨hc, ha, hu, rfl⟩ := (exportRecord_eq_some nf).mp h
  have hmember : ∀ {α : Type} (i : ℕ) {key : String} {v : Json D} (get : Json D → Option α) (otherwise : α),
      (exported nf r ⟨_, hc⟩ ⟨_, ha⟩ ⟨_, hu⟩)[i]? = some (Utf8.lit key, v) →
      member (.obj (Keyed.ofPairs (exported nf r ⟨_, hc⟩ ⟨_, ha⟩ ⟨_, hu⟩))) key get otherwise = get v :=
    fun i key v get otherwise hi => member_ofPairs (nodup_exported nf r _ _ _) (List.mem_of_getElem? hi) get otherwise
  unfold importRecord
  rw [hmember 0 _ _ rfl, hmember 1 _ _ rfl, hmember 2 _ _ rfl, hmember 3 _ _ rfl, hmember 4 _ _ rfl, hmember 5 _ _ rfl,
    hmember 6 _ _ rfl, hmember 9 _ _ rfl, hmember 10 _ _ rfl, hmember 11 _ _ rfl, hmember 12 _ _ rfl,
    hmember 13 _ _ rfl, hmember 14 _ _ rfl, hmember 15 _ _ rfl, hmember 16 _ _ rfl, hmember 7 _ _ rfl,
    hmember 8 _ _ rfl, getEmbedding_exported nf hnf, toFloat_ofFloat hnf]
  by_cases hi : (nf.widen r.importance).isSome = true
  · by_cases he : ∀ x ∈ r.embedding, (nf.widen x).isSome = true
    · have hf : Finite nf r := ⟨hi, he⟩
      rw [if_pos hi, if_pos he, if_pos hf]
      simp [getText, toInt, toIntOrBool, restored, scopeFromString_toString, memoryTypeFromString_toString,
        memoryTierFromString_toString, phaseFromString_toString, confidenceFromString_toString, ofInt_toNat16,
        ofInt_toNat32, ofInt_toNat64]
    · have hf : ¬ Finite nf r := fun h => he h.2
      rw [if_pos hi, if_neg he, if_neg hf]
      rfl
  · have hf : ¬ Finite nf r := fun h => hi h.1
    rw [if_neg hi, if_neg hf]
    rfl

omit [Floats F] in
theorem wellFormed_exported (r : MemoryRecord F) (content agentId userId : Utf8Text) :
    Json.WellFormed (.obj (Keyed.ofPairs (exported nf r content agentId userId))) := by
  have h64 : ∀ x : UInt64, Json.WellFormed (D := D) (.int x.toNat) := fun x => wellFormed_nat x.toNat_lt
  have h32 : ∀ x : UInt32, Json.WellFormed (D := D) (.int x.toNat) :=
    fun x => wellFormed_nat (x.toNat_lt.trans (by decide))
  have h16 : ∀ x : UInt16, Json.WellFormed (D := D) (.int x.toNat) :=
    fun x => wellFormed_nat (x.toNat_lt.trans (by decide))
  have hembedding : Json.WellFormed (.arr (r.embedding.map (ofFloat nf))) := by
    refine .arr fun i hi => ?_
    obtain ⟨x, -, rfl⟩ := List.mem_map.mp hi
    exact wellFormed_ofFloat x
  refine wellFormed_ofPairs fun m hm => ?_
  unfold exported at hm
  rcases List.mem_append.mp hm with hm | hm
  · simp only [List.mem_cons, List.not_mem_nil, or_false] at hm
    rcases hm with rfl | rfl | rfl | rfl | rfl | rfl | rfl | rfl | rfl | rfl | rfl | rfl | rfl | rfl | rfl | rfl | rfl <;>
      first | exact .str _ | exact wellFormed_ofFloat _ | exact h64 _ | exact h32 _ | exact h16 _
  · split at hm
    · cases hm
    · rw [List.mem_singleton.mp hm]
      exact hembedding

theorem exportLine_eq_some (hnf : nf.Lawful) {r : MemoryRecord F} {line : Text} (h : exportLine nf r = some line) :
    ∃ text : Text, line = text ++ [0x0A] ∧ text ≠ [] ∧ 0x0A ∉ text ∧
      importLine nf half text = if Finite nf r then some (restored half r) else none := by
  obtain ⟨j, hj, rfl⟩ := Option.map_eq_some_iff.mp h
  refine ⟨nf.text.dump j, rfl, List.ne_nil_of_length_pos (hnf.text.length_dump_pos j), fun hm => ?_, ?_⟩
  · exact absurd (hnf.text.ge_of_mem_dump j hm) (by decide)
  · have hwell : Json.WellFormed j := by
      obtain ⟨_, _, _, rfl⟩ := (exportRecord_eq_some nf).mp hj
      exact wellFormed_exported nf r _ _ _
    rw [importLine, hnf.text.parse_dump hwell]
    exact importRecord_export nf half hnf hj

theorem importLines_cons {l : Text} (hne : l ≠ []) (h : 0x0A ∉ l) (rest : Text) :
    importLines (l ++ [0x0A] ++ rest) = l :: importLines rest := by
  unfold importLines
  rw [List.append_assoc, List.singleton_append, List.splitOn_append_cons_self, List.splitOn_eq_singleton h,
    List.singleton_append, List.filter_cons_of_pos (by simpa using hne)]

/-- The lines of an export are read as the records restored, those that are
finite. -/
theorem readable_export (hnf : nf.Lawful) : ∀ (rs : List (MemoryRecord F)) {lines : List Text},
    rs.mapM (exportLine nf) = some lines → (importLines lines.flatten).filterMap (importLine nf half) =
      (rs.filter fun r => Finite nf r).map (restored half)
  | [], lines, h => by
    obtain rfl : [] = lines := Option.some.inj h
    rfl
  | r :: rs, lines, h => by
    rw [List.mapM_cons] at h
    obtain ⟨line, hline, h⟩ := Option.bind_eq_some_iff.mp h
    obtain ⟨lines', hrest, h⟩ := Option.bind_eq_some_iff.mp h
    obtain rfl : line :: lines' = lines := Option.some.inj h
    obtain ⟨text, rfl, hne, hmem, hread⟩ := exportLine_eq_some nf half hnf hline
    have ih := readable_export hnf rs hrest
    rw [List.flatten_cons, importLines_cons hne hmem, List.filterMap_cons, hread, ih]
    by_cases hf : Finite nf r
    · rw [if_pos hf, List.filter_cons_of_pos (by simpa using hf)]
      rfl
    · rw [if_neg hf, List.filter_cons_of_neg (by simpa using hf)]

omit [Floats F] in
/-- There is an export exactly if every text is well formed. -/
theorem exportMemories_isSome (s : MemoryStore F) : (exportMemories nf s).isSome = true ↔ ∀ r ∈ s.scanAll,
    Utf8.valid r.content = true ∧ Utf8.valid r.agentId = true ∧ Utf8.valid r.userId = true := by
  have hline : ∀ r : MemoryRecord F, (exportLine nf r).isSome = true ↔
      Utf8.valid r.content = true ∧ Utf8.valid r.agentId = true ∧ Utf8.valid r.userId = true := by
    intro r
    rw [exportLine, Option.isSome_map, Option.isSome_iff_exists]
    constructor
    · rintro ⟨j, hj⟩
      obtain ⟨hc, ha, hu, -⟩ := (exportRecord_eq_some nf).mp hj
      exact ⟨hc, ha, hu⟩
    · rintro ⟨hc, ha, hu⟩
      exact ⟨_, (exportRecord_eq_some nf).mpr ⟨hc, ha, hu, rfl⟩⟩
  have hall : ∀ rs : List (MemoryRecord F), (rs.mapM (exportLine nf)).isSome = true ↔
      ∀ r ∈ rs, (exportLine nf r).isSome = true := by
    intro rs
    induction rs with
    | nil => simp
    | cons r rs ih =>
      rw [List.forall_mem_cons, ← ih, List.mapM_cons]
      cases exportLine nf r <;> cases rs.mapM (exportLine nf) <;> simp
  rw [exportMemories, Option.isSome_map, hall]
  exact forall₂_congr fun r _ => hline r

end Lines

/-! ### Importing -/

section Import

variable {F D : Type} [Floats F] (nf : Numbers F D) (half : F)

/-- Import the lines: each that can be read is stored, and the import ends with
the first that draws no id. `clock` and `now` are what is read of the clock at
each line. The count is that of the records stored. -/
def importFrom (clock : ℕ → List ℤ) (now : ℕ → UInt32) : ℕ → List Text → MemoryStore F → MemoryStore F × Option ℕ
  | _, [], s => (s, some 0)
  | n, line :: lines, s =>
    match importLine nf half line with
    | none => importFrom clock now (n + 1) lines s
    | some r =>
      let (s, stored) := s.fastStore r (clock n) (now n)
      match stored with
      | .ok _ =>
        let (s, imported) := importFrom clock now (n + 1) lines s
        (s, imported.map (· + 1))
      | .error _ => importFrom clock now (n + 1) lines s
      | .thrown => (s, none)
      | .waiting => (s, none)

def importMemories (s : MemoryStore F) (jsonl : Text) (clock : ℕ → List ℤ) (now : ℕ → UInt32) :
    MemoryStore F × Option ℕ := importFrom nf half clock now 0 (importLines jsonl) s

end Import

/-! ### A store that is only stored to -/

section Fresh

variable {F : Type} {t t' : MemoryStore F} {id : UInt64} {r : MemoryRecord F} {clock : List ℤ} {now : UInt32}

/-- What is known of an id is left as it is, but the cache may give it up. Nothing
waits to be written back. -/
structure Leaves (id : UInt64) (t t' : MemoryStore F) : Prop where
  config : t'.config = t.config
  clean : t'.dirtyIds = []
  lsm : t'.lsm id = t.lsm id
  cache : t'.cache.lookup id = t.cache.lookup id ∨ t'.cache.lookup id = none
  hnsw : t'.hnsw id = t.hnsw id

theorem Leaves.refl (h : t.dirtyIds = []) : Leaves id t t := ⟨rfl, h, rfl, .inl rfl, rfl⟩

theorem Leaves.trans {t'' : MemoryStore F} (h : Leaves id t t') (h' : Leaves id t' t'') : Leaves id t t'' where
  config := h'.config.trans h.config
  clean := h'.clean
  lsm := h'.lsm.trans h.lsm
  cache := by
    rcases h'.cache with hc | hc
    · rw [hc]
      exact h.cache
    · exact .inr hc
  hnsw := h'.hnsw.trans h.hnsw

/-- With nothing to write back, giving up records changes the cache only. -/
theorem leaves_evictIfNeeded (h : t.dirtyIds = []) (id : UInt64) : Leaves id t t.evictIfNeeded := by
  have hflush : t.flushDirtyRecords = t := by
    unfold MemoryStore.flushDirtyRecords
    rw [h]
    cases t
    cases h
    rfl
  have hcache : t.evictIfNeeded.cache.lookup id = t.cache.lookup id ∨ t.evictIfNeeded.cache.lookup id = none := by
    rw [MemoryStore.lookup_evictIfNeeded]
    split
    · exact .inr rfl
    · exact .inl rfl
  have heq : ∃ cache, t.evictIfNeeded = { t with cache := cache } := by
    unfold MemoryStore.evictIfNeeded
    split
    · exact ⟨_, rfl⟩
    · dsimp only
      rw [hflush]
      exact ⟨_, rfl⟩
  obtain ⟨cache, heq⟩ := heq
  refine ⟨?_, ?_, ?_, hcache, ?_⟩ <;> rw [heq]
  exact h

/-- A record that is stored is in the storage engine, and in the cache unless
it is given up at once. -/
structure Stores (r : MemoryRecord F) (t t' : MemoryStore F) : Prop where
  config : t'.config = t.config
  clean : t'.dirtyIds = []
  lsm : t'.lsm r.memoryId = some (r.wire t.config.wire)
  cache : t'.cache.lookup r.memoryId = some r ∨ t'.cache.lookup r.memoryId = none
  hnsw : t'.hnsw r.memoryId = true ↔ t.Indexable r.embedding ∨ t.hnsw r.memoryId = true
  other : ∀ id, id ≠ r.memoryId → Leaves id t t'

theorem stores_storeRecord (h : t.dirtyIds = []) (r : MemoryRecord F) : Stores r t (t.storeRecord r) := by
  -- the store before records are given up
  obtain ⟨u, hu, hconfig, hclean, hlsm, hcache⟩ : ∃ u : MemoryStore F, t.storeRecord r = u.evictIfNeeded ∧
      u.config = t.config ∧ u.dirtyIds = [] ∧ u.lsm = Function.update t.lsm r.memoryId (some (r.wire t.config.wire)) ∧
      u.cache = t.cache.insert r.memoryId r := by
    refine ⟨_, rfl, ?_⟩
    have hinsert : ∃ hnsw, (if r.embedding ≠ [] then t.hnswInsert r.memoryId r.embedding else t) =
        { t with hnsw := hnsw } := by
      unfold MemoryStore.hnswInsert
      split
      · split <;> exact ⟨_, rfl⟩
      · exact ⟨_, rfl⟩
    obtain ⟨hnsw, hinsert⟩ := hinsert
    rw [hinsert]
    exact ⟨rfl, h, rfl, rfl⟩
  have hevict := fun id => leaves_evictIfNeeded hclean id
  have hindex : ∀ id, (t.storeRecord r).hnsw id = true ↔
      (r.memoryId = id ∧ t.Indexable r.embedding) ∨ t.hnsw id = true := fun id => MemoryStore.hnsw_storeRecord r
  rw [hu] at hindex ⊢
  refine ⟨(hevict 0).config.trans hconfig, (hevict 0).clean, ?_, ?_, ?_, fun id hne =>
    ⟨(hevict 0).config.trans hconfig, (hevict 0).clean, ?_, ?_, ?_⟩⟩
  · rw [(hevict _).lsm, hlsm, Function.update_self]
  · have hc := (hevict r.memoryId).cache
    rwa [hcache, AList.lookup_insert] at hc
  · rw [hindex]
    simp
  · rw [(hevict id).lsm, hlsm, Function.update_of_ne hne]
  · have hc := (hevict id).cache
    rwa [hcache, AList.lookup_insert_ne hne] at hc
  · rw [Bool.eq_iff_iff, hindex]
    simp [Ne.symm hne]

/-- A record that has an id is stored under it. -/
theorem fastStore_numbered (h : t.dirtyIds = []) (hr : r.memoryId ≠ 0) (clock : List ℤ) (now : UInt32) :
    ∃ u, t.fastStore r clock now = (u, .ok r.memoryId) ∧ Stores (MemoryStore.prepared r now) t u :=
  ⟨_, if_neg hr, stores_storeRecord h _⟩

/-- One that has none is not stored before the clock is read. -/
theorem fastStore_unnumbered (hr : r.memoryId = 0) (now : UInt32) : t.fastStore r [] now = (t, .waiting) := if_pos hr

end Fresh

section Run

variable {F D : Type} [Floats F] {nf : Numbers F D} {half : F} {clock : ℕ → List ℤ} {now : ℕ → UInt32} {id : UInt64}

theorem importFrom_cons_none {line : Text} (h : importLine nf half line = none) (n : ℕ) (lines : List Text)
    (t : MemoryStore F) : importFrom nf half clock now n (line :: lines) t =
      importFrom nf half clock now (n + 1) lines t := by
  rw [importFrom, h]

theorem importFrom_cons_ok {line : Text} {r : MemoryRecord F} (h : importLine nf half line = some r) {n : ℕ}
    {t u : MemoryStore F} {i : UInt64} (hu : t.fastStore r (clock n) (now n) = (u, .ok i)) (lines : List Text) :
    (importFrom nf half clock now n (line :: lines) t).1 = (importFrom nf half clock now (n + 1) lines u).1 := by
  rw [importFrom, h]
  dsimp only
  rw [hu]

theorem importFrom_cons_waiting {line : Text} {r : MemoryRecord F} (h : importLine nf half line = some r) {n : ℕ}
    {t u : MemoryStore F} (hu : t.fastStore r (clock n) (now n) = (u, .waiting)) (lines : List Text) :
    (importFrom nf half clock now n (line :: lines) t).1 = u := by
  rw [importFrom, h]
  dsimp only
  rw [hu]

/-- An import leaves an id that no line has, if no id is drawn. -/
theorem leaves_importFrom : ∀ (lines : List Text) (n : ℕ) (t : MemoryStore F), t.dirtyIds = [] →
    (∀ r ∈ lines.filterMap (importLine nf half),
      (r.memoryId ≠ 0 ∧ id ≠ r.memoryId) ∨ (r.memoryId = 0 ∧ ∀ k, clock k = [])) →
    Leaves id t (importFrom nf half clock now n lines t).1
  | [], _, _, ht, _ => .refl ht
  | line :: lines, n, t, ht, hr => by
    cases hl : importLine nf half line with
    | none =>
      rw [List.filterMap_cons_none hl] at hr
      rw [importFrom_cons_none hl]
      exact leaves_importFrom lines (n + 1) t ht hr
    | some r =>
      rw [List.filterMap_cons_some hl] at hr
      obtain ⟨hhead, hrest⟩ := List.forall_mem_cons.mp hr
      rcases hhead with ⟨h₀, hne⟩ | ⟨h₀, hclock⟩
      · obtain ⟨u, hu, hs⟩ := fastStore_numbered ht h₀ (clock n) (now n)
        rw [importFrom_cons_ok hl hu]
        have hfirst := hs.other id (by rwa [MemoryStore.prepared_memoryId])
        exact hfirst.trans (leaves_importFrom lines (n + 1) u hs.clean hrest)
      · have hu : t.fastStore r (clock n) (now n) = (t, .waiting) := by
          rw [hclock]
          exact fastStore_unnumbered h₀ _
        rw [importFrom_cons_waiting hl hu]
        exact .refl ht

/-- A record of a line is stored at it, and left as it is before and after, if
every line has an id of its own. -/
theorem stores_importFrom : ∀ (lines : List Text) (n : ℕ) (t : MemoryStore F), t.dirtyIds = [] →
    (∀ r ∈ lines.filterMap (importLine nf half), r.memoryId ≠ 0) →
    ((lines.filterMap (importLine nf half)).map (·.memoryId)).Nodup →
    ∀ r ∈ lines.filterMap (importLine nf half), ∃ (k : ℕ) (u v : MemoryStore F), Leaves r.memoryId t u ∧
      Stores (MemoryStore.prepared r (now k)) u v ∧ Leaves r.memoryId v (importFrom nf half clock now n lines t).1
  | [], _, _, _, _, _, r, hr => absurd hr List.not_mem_nil
  | line :: lines, n, t, ht, h₀, hn, r, hr => by
    cases hl : importLine nf half line with
    | none =>
      rw [List.filterMap_cons_none hl] at h₀ hn hr
      rw [importFrom_cons_none hl]
      exact stores_importFrom lines (n + 1) t ht h₀ hn r hr
    | some q =>
      rw [List.filterMap_cons_some hl] at h₀ hn hr
      obtain ⟨hq, hnumbered⟩ := List.forall_mem_cons.mp h₀
      rw [List.map_cons, List.nodup_cons] at hn
      obtain ⟨u, hu, hs⟩ := fastStore_numbered ht hq (clock n) (now n)
      rw [importFrom_cons_ok hl hu]
      rcases List.mem_cons.mp hr with rfl | hr
      · refine ⟨n, t, u, .refl ht, hs, leaves_importFrom lines (n + 1) u hs.clean fun p hp => .inl ⟨hnumbered p hp, ?_⟩⟩
        exact fun he => hn.1 (List.mem_map.mpr ⟨p, hp, he.symm⟩)
      · obtain ⟨k, v, w, hv, hw, hlast⟩ := stores_importFrom lines (n + 1) u hs.clean hnumbered hn.2 r hr
        refine ⟨k, v, w, (hs.other r.memoryId ?_).trans hv, hw, hlast⟩
        rw [MemoryStore.prepared_memoryId]
        exact fun he => hn.1 (List.mem_map.mpr ⟨r, hr, he⟩)

end Run

/-! ### The round trip -/

section RoundTrip

variable {F D : Type} [Floats F] (nf : Numbers F D) (half : F)

/-- A record is as another was, its times and its access count apart. -/
structure Reproduces (q r : MemoryRecord F) : Prop where
  memoryId : q.memoryId = r.memoryId
  parentId : q.parentId = r.parentId
  content : q.content = r.content
  userId : q.userId = r.userId
  agentId : q.agentId = r.agentId
  embedding : q.embedding = r.embedding
  scope : q.scope = r.scope
  memoryType : q.memoryType = r.memoryType
  tier : q.tier = r.tier
  phase : q.phase = r.phase
  confidenceLevel : q.confidenceLevel = r.confidenceLevel
  confidenceScore : q.confidenceScore = r.confidenceScore
  importance : q.importance = r.importance
  memVersion : q.memVersion = r.memVersion
  flags : q.flags = r.flags
  layer : q.layer = r.layer
  lineageParents : q.lineageParents = r.lineageParents
  lineageOp : q.lineageOp = r.lineageOp
  sourceTier : q.sourceTier = r.sourceTier
  gateDecision : q.gateDecision = r.gateDecision
  marginalValue : q.marginalValue = r.marginalValue
  userMetadata : q.userMetadata = r.userMetadata

/-- There is an export of `s`, and importing it into a new store, whatever the
clock, leaves every exported record as it was, in the storage engine and as it
is shown, and finds none that was not found. -/
def RoundTrips (s : MemoryStore F) (c : Config F) : Prop :=
  ∃ text, exportMemories nf s = some text ∧ ∀ clock now,
    let t := (importMemories nf half (.new c) text clock now).1
    ∀ r ∈ s.scanAll, (∃ q, t.lsm r.memoryId = some q ∧ Reproduces q r) ∧
      (∃ q, t.load r.memoryId = some q ∧ Reproduces q r) ∧ (t.hnsw r.memoryId = true → s.hnsw r.memoryId = true)

/-- The record has nothing the importer does not read: it has an id, its texts
are well formed and fit, its numbers are finite, its phase has a name, and it is
raw, ungated and without a score or metadata of its own. An embedding is flagged,
and is one of another dimension if the record is not found. -/
structure Portable (s : MemoryStore F) (dim : ℕ) (r : MemoryRecord F) : Prop where
  numbered : r.memoryId ≠ 0
  written : Utf8.valid r.content = true ∧ Utf8.valid r.agentId = true ∧ Utf8.valid r.userId = true
  finite : Finite nf r
  fits : r.content.length ≤ MAX_SIZE ∧ r.agentId.length ≤ MAX_SIZE ∧ r.userId.length ≤ MAX_SIZE ∧
    r.embedding.length ≤ MAX_SIZE
  phase : r.phase ≠ .invalidated
  unscored : r.confidenceScore = half
  raw : r.layer = .raw ∧ r.lineageParents = [] ∧ r.lineageOp = .none
  ungated : r.sourceTier = .inference ∧ r.gateDecision = .accepted ∧ r.marginalValue = 0
  plain : r.userMetadata = .empty
  flagged : r.embedding ≠ [] → r.flags ||| RecordFlags.HAS_EMBEDDING = r.flags
  found : r.embedding ≠ [] → r.embedding.length = dim → s.hnsw r.memoryId = true

/-- Of a record restored everything comes back, but texts are cut. -/
theorem clip_restored (hnf : nf.Lawful) (r : MemoryRecord F) (now : UInt32) :
    clip nf (MemoryStore.prepared (restored half r) now).toBody = bare (restored half r).toBody := by
  have hbody : (MemoryStore.prepared (restored half r) now).toBody = (restored half r).toBody :=
    (Opened.toBody_prepared (restored half r) r.memoryId now).1
  have hplain : ¬ ((restored half r).toBody.hasV2 nf = true ∨ (restored half r).toBody.hasUser = true) := by
    have hzero := hnf.isZero_zero
    simp [Body.hasV2, Body.hasUser, restored, MemoryRecord.zero, StringMap.empty, hzero]
  rw [hbody, clip_eq hnf, kept_of_none hplain]
  exact ite_self _

omit [Floats F] in
theorem prepared_eq (r : MemoryRecord F) (now : UInt32) : ∃ createdAt lastAccessed, MemoryStore.prepared r now =
    { r with
      createdAt := createdAt
      lastAccessed := lastAccessed
      flags := if r.embedding ≠ [] then r.flags ||| RecordFlags.HAS_EMBEDDING else r.flags } := by
  unfold MemoryStore.prepared
  by_cases he : r.embedding ≠ []
  · rw [if_pos he]
    by_cases hc : r.createdAt = 0
    · exact ⟨now, now, by simp [hc, he]⟩
    · exact ⟨r.createdAt, r.lastAccessed, by simp [hc, he]⟩
  · rw [if_neg he]
    by_cases hc : r.createdAt = 0
    · exact ⟨now, now, by simp [hc, he]⟩
    · exact ⟨r.createdAt, r.lastAccessed, by simp [hc, he]⟩

/-- The record that is stored for a line, as it comes back. -/
theorem wire_restored (hnf : nf.Lawful) (r : MemoryRecord F) (now : UInt32) :
    (MemoryStore.prepared (restored half r) now).wire (wireOf nf hnf) =
      { MemoryStore.prepared (restored half r) now with toBody := bare (restored half r).toBody } := by
  rw [← clip_restored nf half hnf r now]
  rfl

/-- What comes back is the record itself exactly if nothing of it is dropped. -/
theorem reproduces_wire_iff (hnf : nf.Lawful) (r : MemoryRecord F) (now : UInt32) :
    Reproduces ((MemoryStore.prepared (restored half r) now).wire (wireOf nf hnf)) r ↔
      (r.content.length ≤ MAX_SIZE ∧ r.agentId.length ≤ MAX_SIZE ∧ r.userId.length ≤ MAX_SIZE ∧
        r.embedding.length ≤ MAX_SIZE) ∧ r.phase ≠ .invalidated ∧ r.confidenceScore = half ∧
      (r.layer = .raw ∧ r.lineageParents = [] ∧ r.lineageOp = .none) ∧
      (r.sourceTier = .inference ∧ r.gateDecision = .accepted ∧ r.marginalValue = 0) ∧ r.userMetadata = .empty ∧
      (r.embedding ≠ [] → r.flags ||| RecordFlags.HAS_EMBEDDING = r.flags) := by
  rw [wire_restored]
  obtain ⟨createdAt, lastAccessed, heq⟩ := prepared_eq (restored half r) now
  rw [heq]
  constructor
  · intro h
    have hphase : (if r.phase = .invalidated then .active else r.phase) = r.phase := h.phase
    have hflags : (if r.embedding ≠ [] then r.flags ||| RecordFlags.HAS_EMBEDDING else r.flags) = r.flags := h.flags
    refine ⟨⟨take_eq_iff.mp h.content, take_eq_iff.mp h.agentId, take_eq_iff.mp h.userId,
      (List.take_eq_self_iff _).mp h.embedding⟩, fun hp => ?_, h.confidenceScore.symm,
      ⟨h.layer.symm, h.lineageParents.symm, h.lineageOp.symm⟩,
      ⟨h.sourceTier.symm, h.gateDecision.symm, h.marginalValue.symm⟩, h.userMetadata.symm, fun he => ?_⟩
    · rw [if_pos hp, hp] at hphase
      cases hphase
    · rwa [if_pos he] at hflags
  · rintro ⟨⟨hcontent, hagent, huser, hembedding⟩, hphase, hscore, ⟨hlayer, hparents, hop⟩,
      ⟨htier, hgate, hmarginal⟩, hplain, hflagged⟩
    have hflags : (if r.embedding ≠ [] then r.flags ||| RecordFlags.HAS_EMBEDDING else r.flags) = r.flags := by
      split
      · next he => exact hflagged he
      · rfl
    exact {
      memoryId := rfl
      parentId := rfl
      content := take_eq_iff.mpr hcontent
      userId := take_eq_iff.mpr huser
      agentId := take_eq_iff.mpr hagent
      embedding := (List.take_eq_self_iff _).mpr hembedding
      scope := rfl
      memoryType := rfl
      tier := rfl
      phase := if_neg hphase
      confidenceLevel := rfl
      confidenceScore := hscore.symm
      importance := rfl
      memVersion := rfl
      flags := hflags
      layer := hlayer.symm
      lineageParents := hparents.symm
      lineageOp := hop.symm
      sourceTier := htier.symm
      gateDecision := hgate.symm
      marginalValue := hmarginal.symm
      userMetadata := hplain.symm }

/-- The record is then shown as it was before it was written, too. -/
theorem Reproduces.of_wire {hnf : nf.Lawful} {r : MemoryRecord F} {now : UInt32}
    (h : Reproduces ((MemoryStore.prepared (restored half r) now).wire (wireOf nf hnf)) r) :
    Reproduces (MemoryStore.prepared (restored half r) now) r := by
  rw [wire_restored] at h
  have hbody : (MemoryStore.prepared (restored half r) now).toBody = (restored half r).toBody :=
    (Opened.toBody_prepared (restored half r) r.memoryId now).1
  have hcontent := congrArg Body.content hbody
  have huser := congrArg Body.userId hbody
  have hagent := congrArg Body.agentId hbody
  have hembedding := congrArg Body.embedding hbody
  have hlayer := congrArg Body.layer hbody
  have hparents := congrArg Body.lineageParents hbody
  have hop := congrArg Body.lineageOp hbody
  have htier := congrArg Body.sourceTier hbody
  have hgate := congrArg Body.gateDecision hbody
  have hmarginal := congrArg Body.marginalValue hbody
  have hmeta := congrArg Body.userMetadata hbody
  exact { h with
    content := hcontent
    userId := huser
    agentId := hagent
    embedding := hembedding
    layer := hlayer.trans h.layer
    lineageParents := hparents.trans h.lineageParents
    lineageOp := hop.trans h.lineageOp
    sourceTier := htier.trans h.sourceTier
    gateDecision := hgate.trans h.gateDecision
    marginalValue := hmarginal.trans h.marginalValue
    userMetadata := hmeta.trans h.userMetadata }

omit [Floats F] in
/-- No two cached records have one id. -/
theorem nodup_scanAll {s : MemoryStore F} (ho : Own s) : (s.scanAll.map (·.memoryId)).Nodup := by
  have hkeys : s.scanAll.map (·.memoryId) = s.cache.keys := by
    rw [MemoryStore.scanAll, List.map_map]
    refine List.map_congr_left fun e he => ?_
    exact ho.cached e.1 e.2 (AList.mem_lookup_iff.mpr he)
  rw [hkeys]
  exact s.cache.nodupKeys

variable {s : MemoryStore F} {c : Config F} {text : Text} {r : MemoryRecord F}

/-- What an import leaves of a record whose line can be read. -/
structure Imported (c : Config F) (id : UInt64) (p : MemoryRecord F) (t : MemoryStore F) : Prop where
  lsm : t.lsm id = some (p.wire c.wire)
  load : t.load id = some p ∨ t.load id = some (p.wire c.wire)
  hnsw : t.hnsw id = true ↔ p.embedding ≠ [] ∧ p.embedding.length = c.embeddingDim

theorem imported_importMemories (hnf : nf.Lawful) (ho : Own s) (hnum : ∀ q ∈ s.scanAll, q.memoryId ≠ 0)
    (ht : exportMemories nf s = some text) (hr : r ∈ s.scanAll) (hf : Finite nf r) (clock : ℕ → List ℤ)
    (now : ℕ → UInt32) : ∃ k, Imported c r.memoryId (MemoryStore.prepared (restored half r) (now k))
      (importMemories nf half (.new c) text clock now).1 := by
  obtain ⟨lines, hlines, rfl⟩ := Option.map_eq_some_iff.mp ht
  have hread := readable_export nf half hnf s.scanAll hlines
  have hnumbered : ∀ q ∈ (importLines lines.flatten).filterMap (importLine nf half), q.memoryId ≠ 0 := by
    rw [hread]
    intro q hq
    obtain ⟨p, hp, rfl⟩ := List.mem_map.mp hq
    exact hnum p (List.mem_of_mem_filter hp)
  have hnodup : (((importLines lines.flatten).filterMap (importLine nf half)).map (·.memoryId)).Nodup := by
    rw [hread, List.map_map]
    have hsub : ((s.scanAll.filter fun q => Finite nf q).map (·.memoryId)).Sublist (s.scanAll.map (·.memoryId)) :=
      List.filter_sublist.map _
    exact hsub.nodup (nodup_scanAll ho)
  have hmem : restored half r ∈ (importLines lines.flatten).filterMap (importLine nf half) := by
    rw [hread]
    exact List.mem_map_of_mem (List.mem_filter.mpr ⟨hr, decide_eq_true hf⟩)
  obtain ⟨k, u, v, hu, hv, ht⟩ : ∃ (k : ℕ) (u v : MemoryStore F), Leaves r.memoryId (.new c) u ∧
      Stores (MemoryStore.prepared (restored half r) (now k)) u v ∧
      Leaves r.memoryId v (importMemories nf half (.new c) lines.flatten clock now).1 :=
    stores_importFrom _ 0 (.new c) rfl hnumbered hnodup _ hmem
  have hid : (MemoryStore.prepared (restored half r) (now k)).memoryId = r.memoryId := MemoryStore.prepared_memoryId _ _
  have hconfig : u.config = c := hu.config
  have hlsm : (importMemories nf half (.new c) lines.flatten clock now).1.lsm r.memoryId =
      some ((MemoryStore.prepared (restored half r) (now k)).wire c.wire) := by
    have hstored := hv.lsm
    rw [hid, hconfig] at hstored
    exact ht.lsm.trans hstored
  refine ⟨k, hlsm, ?_, ?_⟩
  · have hcache := hv.cache
    rw [hid] at hcache
    rcases ht.cache with h | h
    · rcases hcache with hc | hc
      · exact .inl (MemoryStore.load_cached (h.trans hc))
      · exact .inr ((MemoryStore.load_stored (h.trans hc)).trans hlsm)
    · exact .inr ((MemoryStore.load_stored h).trans hlsm)
  · have hnew : u.hnsw r.memoryId = false := hu.hnsw
    have hindex := hv.hnsw
    rw [hid, hnew, MemoryStore.Indexable, hconfig] at hindex
    rw [ht.hnsw, hindex]
    simp

/-- A record that cannot be read back leaves nothing, and so does one without an
id while no clock is read. -/
theorem lost_importMemories (hnf : nf.Lawful) {id : UInt64} (ht : exportMemories nf s = some text)
    (clock : ℕ → List ℤ) (now : ℕ → UInt32)
    (hlost : ∀ q ∈ s.scanAll, Finite nf q →
      (q.memoryId ≠ 0 ∧ id ≠ q.memoryId) ∨ (q.memoryId = 0 ∧ ∀ k, clock k = [])) :
    (importMemories nf half (.new c) text clock now).1.lsm id = none := by
  obtain ⟨lines, hlines, rfl⟩ := Option.map_eq_some_iff.mp ht
  have hread := readable_export nf half hnf s.scanAll hlines
  refine (leaves_importFrom (importLines lines.flatten) 0 (.new c) rfl fun r hr => ?_).lsm
  rw [hread] at hr
  obtain ⟨q, hq, rfl⟩ := List.mem_map.mp hr
  obtain ⟨hq, hf⟩ := List.mem_filter.mp hq
  exact hlost q hq (of_decide_eq_true hf)

/-- What is imported is the record exactly if it is portable. -/
theorem portable_iff (hnf : nf.Lawful) {t : MemoryStore F} {now : UInt32} (hnum : r.memoryId ≠ 0)
    (hwritten : Utf8.valid r.content = true ∧ Utf8.valid r.agentId = true ∧ Utf8.valid r.userId = true)
    (hf : Finite nf r) (hi : Imported { c with wire := wireOf nf hnf } r.memoryId
      (MemoryStore.prepared (restored half r) now) t) :
    ((∃ q, t.lsm r.memoryId = some q ∧ Reproduces q r) ∧ (∃ q, t.load r.memoryId = some q ∧ Reproduces q r) ∧
      (t.hnsw r.memoryId = true → s.hnsw r.memoryId = true)) ↔ Portable nf half s c.embeddingDim r := by
  have hembedding : (MemoryStore.prepared (restored half r) now).embedding = r.embedding :=
    MemoryStore.embedding_prepared _ _
  have hindex := hi.hnsw
  rw [hembedding] at hindex
  constructor
  · rintro ⟨⟨q, hq, hsame⟩, -, hfound⟩
    obtain rfl : _ = q := Option.some.inj (hi.lsm.symm.trans hq)
    obtain ⟨hfits, hphase, hscore, hraw, hgate, hplain, hflagged⟩ := (reproduces_wire_iff nf half hnf r now).mp hsame
    exact ⟨hnum, hwritten, hf, hfits, hphase, hscore, hraw, hgate, hplain, hflagged,
      fun hne hdim => hfound (hindex.mpr ⟨hne, hdim⟩)⟩
  · intro h
    have hsame := (reproduces_wire_iff nf half hnf r now).mpr
      ⟨h.fits, h.phase, h.unscored, h.raw, h.ungated, h.plain, h.flagged⟩
    refine ⟨⟨_, hi.lsm, hsame⟩, ?_, fun ht => ?_⟩
    · rcases hi.load with hl | hl
      · exact ⟨_, hl, hsame.of_wire⟩
      · exact ⟨_, hl, hsame⟩
    · obtain ⟨hne, hdim⟩ := hindex.mp ht
      exact h.found hne hdim

/-- An export is read back whole exactly if each of its records is portable. -/
theorem keeps_iff_of_own (hnf : nf.Lawful) (ho : Own s) : RoundTrips nf half s { c with wire := wireOf nf hnf } ↔
    ∀ r ∈ s.scanAll, Portable nf half s c.embeddingDim r := by
  constructor
  · rintro ⟨text, ht, hall⟩
    have hwritten := (exportMemories_isSome nf s).mp (Option.isSome_iff_exists.mpr ⟨text, ht⟩)
    -- while the clock is not read, no record is stored under a drawn id
    have hnum : ∀ r ∈ s.scanAll, r.memoryId ≠ 0 := by
      intro r hr h₀
      obtain ⟨q, hq, -⟩ := (hall (fun _ => []) (fun _ => 0) r hr).1
      rw [h₀, lost_importMemories nf half hnf ht (fun _ => []) (fun _ => 0) fun p _ _ => ?_] at hq
      · cases hq
      · by_cases hp : p.memoryId = 0
        · exact .inr ⟨hp, fun _ => rfl⟩
        · exact .inl ⟨hp, Ne.symm hp⟩
    intro r hr
    have hf : Finite nf r := by
      by_contra hf
      obtain ⟨q, hq, -⟩ := (hall (fun _ => []) (fun _ => 0) r hr).1
      have hother : ∀ p ∈ s.scanAll, Finite nf p → r.memoryId ≠ p.memoryId := by
        intro p hp hpf he
        obtain rfl : r = p := List.inj_on_of_nodup_map (nodup_scanAll ho) hr hp he
        exact hf hpf
      rw [lost_importMemories nf half hnf ht _ _ fun p hp hpf => .inl ⟨hnum p hp, hother p hp hpf⟩] at hq
      cases hq
    obtain ⟨k, hk⟩ := imported_importMemories nf half hnf ho hnum ht hr hf (fun _ => []) (fun _ => 0)
    exact (portable_iff nf half hnf (hnum r hr) (hwritten r hr) hf hk).mp (hall _ _ r hr)
  · intro hall
    obtain ⟨text, ht⟩ := Option.isSome_iff_exists.mp ((exportMemories_isSome nf s).mpr fun r hr => (hall r hr).written)
    refine ⟨text, ht, fun clock now r hr => ?_⟩
    have h := hall r hr
    obtain ⟨k, hk⟩ := imported_importMemories nf half hnf ho (fun q hq => (hall q hq).numbered) ht hr h.finite clock now
    exact (portable_iff nf half hnf h.numbered h.written h.finite hk).mpr h

omit s c text r in
/-- **A backup restores a store exactly if all of its records are portable.** For
the store after any run from a new one, with any configuration, and for any new
store the export is imported into: the export can be written, and the import has
each exported record as it was and finds none that was not found, if and only if
every exported record is portable. -/
theorem backup_roundTrip_iff (hnf : nf.Lawful) (c : Config F) (h : HNSWConfig F) (acts : List (Act F))
    (c' : Config F) :
    RoundTrips nf half (run Opened.act (.start c h) acts).store { c' with wire := wireOf nf hnf } ↔
      ∀ r ∈ (run Opened.act (.start c h) acts).store.scanAll,
        Portable nf half (run Opened.act (.start c h) acts).store c'.embeddingDim r := by
  have hinv : ∀ (acts : List (Act F)) (x : Opened F), x.Sound → Own x.store →
      Own (run Opened.act x acts).store := by
    intro acts
    induction acts with
    | nil => exact fun x _ ho => ho
    | cons a acts ih => exact fun x hx ho => ih (x.act a) (hx.act a) (Opened.own_act hx ho a)
  exact keeps_iff_of_own nf half hnf (hinv acts _ (Opened.sound_start c h) (everywhere_new c))

end RoundTrip

/-! ### A store of two tasters -/

def zeroText : Json.Floating Unit :=
  ⟨fun _ => Utf8.bytes "0.0", fun s => if s = Utf8.bytes "0.0" then some () else none⟩

/-- Floats as their bits, of which only zero is written. -/
def zeros : Numbers UInt32 Unit where
  toBits := id
  ofBits := id
  isZero x := x = 0 ∨ x = 0x80000000
  widen x := if x = 0 then some () else none
  narrow := fun _ => 0
  ofInt := UInt32.ofInt
  trunc := fun _ => 0
  text := zeroText.library

theorem lawful_zeros : zeros.Lawful where
  ofBits_toBits := fun _ => rfl
  isZero_zero := by decide
  narrow_widen := fun x d h => (Option.ite_none_right_eq_some.mp h).1.symm
  text := by
    have hne : Utf8.bytes "0.0" ≠ [] := by decide
    have hnumeric : ∀ b ∈ Utf8.bytes "0.0", isNumeric b = true := List.all_eq_true.mp (by decide)
    have hread : readNumber zeroText (Utf8.bytes "0.0") = some (.float ()) := rfl
    exact Json.Floating.Lawful.library ⟨fun _ => hne, fun _ => hnumeric, fun _ => hread⟩

/-- A half, as a float. -/
def aHalf : UInt32 := 0x3F000000

/-- A note with an embedding. -/
def embedded : MemoryRecord UInt32 :=
  { MemoryRecord.zero with
    memoryId := 1
    userId := Utf8.bytes "ann"
    agentId := Utf8.bytes "default"
    content := Utf8.bytes "likes tea"
    embedding := [0]
    confidenceScore := aHalf }

/-- A fact derived from it. -/
def derivedFact : MemoryRecord UInt32 :=
  { embedded with memoryId := 2, embedding := [], layer := .derived, lineageParents := [1], lineageOp := .infer }

def storing (rs : List (MemoryRecord UInt32)) : List (Act UInt32) :=
  rs.map fun r => .turn (.call (.fastStore r [] 5) 0)

/-- A note that is stored can be exported and imported. -/
theorem roundTrip_embedded : RoundTrips zeros aHalf (run Opened.act (.start fourCached plain) (storing [embedded])).store
    { fourCached with wire := wireOf zeros lawful_zeros } := by
  refine (backup_roundTrip_iff zeros aHalf lawful_zeros fourCached plain (storing [embedded]) fourCached).mpr ?_
  have hscan : (run Opened.act (.start fourCached plain) (storing [embedded])).store.scanAll =
      [MemoryStore.prepared embedded 5] := by decide
  rw [hscan]
  refine List.forall_mem_singleton.mpr ?_
  exact {
    numbered := by decide
    written := by decide
    finite := by decide
    fits := by decide
    phase := by decide
    unscored := by decide
    raw := by decide
    ungated := by decide
    plain := by decide
    flagged := fun _ => by decide
    found := fun _ _ => by decide }

/-- What the import of an export comes to, with a clock that is not read. -/
def reimported (s : MemoryStore UInt32) : MemoryStore UInt32 :=
  (importMemories zeros aHalf (.new { fourCached with wire := wireOf zeros lawful_zeros })
    ((exportMemories zeros s).getD []) (fun _ => []) fun _ => 7).1

theorem reimported_eq {s : MemoryStore UInt32} {text : Text} (h : exportMemories zeros s = some text) :
    reimported s = (importMemories zeros aHalf (.new { fourCached with wire := wireOf zeros lawful_zeros }) text
      (fun _ => []) fun _ => 7).1 := by
  rw [reimported, h]
  rfl

/-- A note that was archived is found again, and a fact that was derived is raw. -/
theorem archived_found :
    ¬ RoundTrips zeros aHalf (run Opened.act (.start fourCached plain)
      (storing [embedded] ++ [.turn (.call (.archive 1) 0)])).store
      { fourCached with wire := wireOf zeros lawful_zeros } ∧
    ¬ RoundTrips zeros aHalf (run Opened.act (.start fourCached plain) (storing [derivedFact])).store
      { fourCached with wire := wireOf zeros lawful_zeros } := by
  constructor
  · rintro ⟨text, ht, hall⟩
    have hscan : (MemoryStore.archived (MemoryStore.prepared embedded 5)) ∈ (run Opened.act (.start fourCached plain)
        (storing [embedded] ++ [.turn (.call (.archive 1) 0)])).store.scanAll := by decide
    have hfound := (hall (fun _ => []) (fun _ => 7) _ hscan).2.2
    rw [← reimported_eq ht] at hfound
    exact absurd (hfound (by decide +kernel)) (by decide +kernel)
  · rintro ⟨text, ht, hall⟩
    have hscan : MemoryStore.prepared derivedFact 5 ∈
        (run Opened.act (.start fourCached plain) (storing [derivedFact])).store.scanAll := by decide
    obtain ⟨q, hq, hsame⟩ := (hall (fun _ => []) (fun _ => 7) _ hscan).1
    rw [← reimported_eq ht] at hq
    have hraw : ((reimported (run Opened.act (.start fourCached plain) (storing [derivedFact])).store).lsm 2).map
        (·.layer) = some .raw := by decide +kernel
    have hlayer : q.layer = .raw := by
      rw [show MemoryRecord.memoryId (MemoryStore.prepared derivedFact 5) = 2 from rfl] at hq
      rw [hq] at hraw
      exact Option.some.inj hraw
    exact absurd (hsame.layer.symm.trans hlayer) (by decide)

end Memory
end Amind
