/-
# The vector index and the phases of the records

Only a record that is live and of phase `active` should be found by a search.
Removing and archiving a record take it out of the vector index. Updating it
does not, although its old version is no longer active then, and giving it an
embedding puts it back whatever its phase is.

`indexAgrees_iff` says that the ids in the index are those of active records
after every call of a run, exactly when no call of the run does one of these;
the storage engine keeps its answers between the calls.
-/
import Amind.Lib.Run
import Amind.Memory.Writes

namespace Amind
namespace Memory

open Amind.Core
open Run (run Along Paused pausing Still OnOps)

/-- The record is one a search should find. -/
def Searchable {F : Type} (r : MemoryRecord F) : Prop := r.isAlive = true ∧ r.phase = .active

instance {F : Type} (r : MemoryRecord F) : Decidable (Searchable r) :=
  inferInstanceAs (Decidable (r.isAlive = true ∧ r.phase = .active))

/-- The id a call takes out of the index. -/
def Op.drops {F : Type} : Op F → Option UInt64
  | .remove id => some id
  | .archive id => some id
  | _ => none

namespace MemoryStore

variable {F : Type}

/-- Every id that is active in the index names a live record whose phase is
active. -/
def IndexAgrees (s : MemoryStore F) : Prop :=
  ∀ id, s.hnsw id = true → ∃ r, s.peek id = .ok r ∧ Searchable r

/-- A record of this embedding gets into the index. -/
def Indexable (s : MemoryStore F) (v : List F) : Prop := v ≠ [] ∧ v.length = s.config.embeddingDim

instance (s : MemoryStore F) (v : List F) : Decidable (s.Indexable v) :=
  decidable_of_iff (v.isEmpty = false ∧ v.length = s.config.embeddingDim) (by simp [Indexable])

/-- The id a call puts into the index. -/
def inserts (s : MemoryStore F) : Op F → Option UInt64
  | .fastStore r clock now => if s.Indexable r.embedding then (s.fastStore r clock now).2.id else none
  | .update id c v clock now =>
    (s.load id).bind fun old =>
      if s.Indexable (newVersion old 0 c v now).embedding then (s.update id c v clock now).2.id else none
  | .setEmbedding id v =>
    if (s.load id).isSome ∧ v.length = s.config.embeddingDim then some id else none
  | _ => none

/-! ### The index after a call -/

section Index

variable {s : MemoryStore F} {id id' : UInt64} {v : List F}

theorem hnsw_hnswInsert : (s.hnswInsert id v).hnsw id' = true ↔
    (id = id' ∧ v.length = s.config.embeddingDim) ∨ s.hnsw id' = true := by
  unfold hnswInsert
  split
  · rename_i h
    by_cases he : id = id'
    · subst he
      simp [h]
    · simp [he, Function.update_of_ne (Ne.symm he)]
  · rename_i h
    simp [h]

/-- An embedding is inserted unless there is none. -/
theorem hnsw_ite : (if v ≠ [] then s.hnswInsert id v else s).hnsw id' = true ↔
    (id = id' ∧ s.Indexable v) ∨ s.hnsw id' = true := by
  unfold Indexable
  split
  · rename_i h
    rw [hnsw_hnswInsert]
    simp [h]
  · rename_i h
    simp [not_not.mp h]

theorem hnsw_flushDirtyRecords (s : MemoryStore F) : s.flushDirtyRecords.hnsw = s.hnsw :=
  (putRaw_foldl s.dirtyIds s 0).2.2.2.1

theorem hnsw_evictIfNeeded (s : MemoryStore F) : s.evictIfNeeded.hnsw = s.hnsw := by
  unfold evictIfNeeded
  split
  · rfl
  · exact hnsw_flushDirtyRecords s

theorem hnsw_modify (s : MemoryStore F) (id : UInt64) (f : MemoryRecord F → MemoryRecord F) :
    (s.modify id f).hnsw = s.hnsw := by
  unfold modify
  split <;> rfl

theorem embedding_prepared (r : MemoryRecord F) (now : UInt32) : (prepared r now).embedding = r.embedding := by
  unfold prepared
  dsimp only
  split <;> split <;> rfl

theorem hnsw_storeRecord (r : MemoryRecord F) : (s.storeRecord r).hnsw id' = true ↔
    (r.memoryId = id' ∧ s.Indexable r.embedding) ∨ s.hnsw id' = true := by
  unfold storeRecord
  rw [hnsw_evictIfNeeded]
  exact hnsw_ite

theorem hnsw_fastStore (s : MemoryStore F) (r : MemoryRecord F) (clock : List ℤ) (now : UInt32) (id' : UInt64) :
    (s.fastStore r clock now).1.hnsw id' = true ↔
      s.inserts (.fastStore r clock now) = some id' ∨ s.hnsw id' = true := by
  unfold inserts
  dsimp only
  rw [Option.ite_none_right_eq_some, and_comm]
  unfold fastStore
  by_cases h₀ : r.memoryId = 0
  · rw [if_pos h₀]
    cases hn : s.idGen.nextId clock with
    | returned id g =>
      dsimp only
      rw [hnsw_storeRecord, prepared_memoryId, embedding_prepared, Stored.id, Option.some_inj]
      rfl
    | thrown => simp [Stored.ofNextId, Stored.id]
    | waiting => simp [Stored.ofNextId, Stored.id]
  · rw [if_neg h₀]
    dsimp only
    rw [hnsw_storeRecord, prepared_memoryId, embedding_prepared, Stored.id, Option.some_inj]

theorem embedding_newVersion (old : MemoryRecord F) (newId newId' : UInt64) (c : Text) (v : List F) (now : UInt32) :
    (newVersion old newId c v now).embedding = (newVersion old newId' c v now).embedding := by
  unfold newVersion
  dsimp only
  split <;> rfl

theorem hnsw_update (s : MemoryStore F) (id : UInt64) (c : Text) (v : List F) (clock : List ℤ) (now : UInt32)
    (id' : UInt64) : (s.update id c v clock now).1.hnsw id' = true ↔
      s.inserts (.update id c v clock now) = some id' ∨ s.hnsw id' = true := by
  unfold inserts update
  dsimp only
  cases hl : s.load id with
  | none => simp
  | some old =>
    rw [Option.bind_some, Option.ite_none_right_eq_some, and_comm]
    cases hn : s.idGen.nextId clock with
    | returned newId g =>
      dsimp only
      rw [Stored.id, Option.some_inj, embedding_newVersion old 0 newId]
      exact hnsw_ite
    | thrown => simp [Stored.ofNextId, Stored.id]
    | waiting => simp [Stored.ofNextId, Stored.id]

theorem hnsw_remove (s : MemoryStore F) (id : UInt64) : (s.remove id).1.hnsw = Function.update s.hnsw id false := by
  unfold remove
  dsimp only
  split
  · rfl
  · split <;> rfl

theorem hnsw_archive (s : MemoryStore F) (id : UInt64) : (s.archive id).1.hnsw = Function.update s.hnsw id false := by
  unfold archive
  dsimp only
  split
  · rfl
  · split <;> rfl

theorem hnsw_setEmbedding (s : MemoryStore F) (id : UInt64) (v : List F) (id' : UInt64) :
    (s.setEmbedding id v).hnsw id' = true ↔ s.inserts (.setEmbedding id v) = some id' ∨ s.hnsw id' = true := by
  unfold inserts setEmbedding
  dsimp only
  rw [hnsw_modify, Option.ite_none_right_eq_some, Option.some_inj]
  by_cases hl : (s.load id).isSome = true
  · rw [if_pos hl, hnsw_hnswInsert]
    simp [hl, and_comm]
  · rw [if_neg hl]
    simp [hl]

end Index

/-- **The ids in the index after a call: the one it inserts, and those that were
there but for the one it takes out.** -/
theorem hnsw_exec [Floats F] (s : MemoryStore F) (op : Op F) (id : UInt64) :
    (s.exec op).hnsw id = true ↔ s.inserts op = some id ∨ (s.hnsw id = true ∧ op.drops ≠ some id) := by
  have hdrop : ∀ i, Function.update s.hnsw i false id = true ↔ s.hnsw id = true ∧ some i ≠ some id := by
    intro i
    by_cases he : id = i
    · subst he
      simp
    · simp [Function.update_of_ne he, Ne.symm he]
  cases op with
  | fastStore r clock now => simpa [exec, Op.drops] using hnsw_fastStore s r clock now id
  | update i c v clock now => simpa [exec, Op.drops] using hnsw_update s i c v clock now id
  | remove i =>
    show (s.remove i).1.hnsw id = true ↔ _
    rw [hnsw_remove, hdrop]
    simp [inserts, Op.drops]
  | archive i =>
    show (s.archive i).1.hnsw id = true ↔ _
    rw [hnsw_archive, hdrop]
    simp [inserts, Op.drops]
  | setEmbedding i v => simpa [exec, Op.drops] using hnsw_setEmbedding s i v id
  | boostImportance i delta =>
    have h : (s.boostImportance i delta).hnsw = s.hnsw := by
      unfold boostImportance
      split
      · exact hnsw_modify s i _
      · rfl
    simp [exec, inserts, Op.drops, h]
  | updateInPlace i c =>
    have h : (s.updateInPlace i c).hnsw = s.hnsw := by
      unfold updateInPlace
      split
      · exact hnsw_modify s i _
      · rfl
    simp [exec, inserts, Op.drops, h]
  | flush => simp [exec, inserts, Op.drops, flush, hnsw_flushDirtyRecords]
  | getCached i now =>
    have h : (((s.getCached i now).map (·.1)).getD s).hnsw = s.hnsw := by
      unfold getCached
      cases s.cache.lookup i <;> rfl
    simp [exec, inserts, Op.drops, h]

/-! ### Which calls keep the agreement -/

/-- A record under an id that is in the index, or gets there with the record,
is searchable; an updated record is not in the index, unless its new version
takes its id; only a searchable record is given an embedding that fits. -/
def KeepsAgreement (s : MemoryStore F) : Op F → Prop
  | .fastStore r clock now =>
    ∀ id ∈ (s.fastStore r clock now).2.id, s.hnsw id = true ∨ s.Indexable r.embedding → Searchable r
  | .update id c v clock now =>
    ∀ newId ∈ (s.update id c v clock now).2.id, newId = id ∨ s.hnsw id = false
  | .setEmbedding id v => ∀ r ∈ s.load id, v.length = s.config.embeddingDim → Searchable r
  | _ => True

instance (s : MemoryStore F) : ∀ op, Decidable (s.KeepsAgreement op)
  -- by the instance of the option: the ids themselves are too many to go through
  | .fastStore r clock now => Option.decidableForallMem (s.fastStore r clock now).2.id
  | .update id c v clock now => Option.decidableForallMem (s.update id c v clock now).2.id
  | .setEmbedding id v =>
    inferInstanceAs (Decidable (∀ r ∈ s.load id, v.length = s.config.embeddingDim → Searchable r))
  | .remove _ | .archive _ | .boostImportance _ _ | .updateInPlace _ _ | .flush | .getCached _ _ =>
      inferInstanceAs (Decidable True)

section Agreement

variable {s : MemoryStore F} {id : UInt64}

theorem searchable_version {w : Wire F} {r : MemoryRecord F} : Searchable (version w r) ↔ Searchable r := Iff.rfl

theorem indexAgrees_iff_shown :
    s.IndexAgrees ↔ ∀ id, s.hnsw id = true → ∃ r, s.shown id = some r ∧ Searchable r := by
  refine forall_congr' fun id => imp_congr_right fun _ => ?_
  unfold peek shown
  cases s.load id with
  | none => simp
  | some r =>
    constructor
    · rintro ⟨r', hr, hs⟩
      cases hr
      exact ⟨_, rfl, hs⟩
    · rintro ⟨r', hr, hs⟩
      cases hr
      exact ⟨r, rfl, hs⟩

theorem searchable_withEmbedding {v : List F} {r : MemoryRecord F} :
    Searchable (withEmbedding v r) ↔ Searchable r := by
  have h : (withEmbedding v r).Tombstoned ↔ r.Tombstoned := MemoryRecord.tombstoned_hasEmbedding rfl
  unfold Searchable
  rw [MemoryRecord.isAlive_iff, MemoryRecord.isAlive_iff, h]
  rfl

theorem searchable_prepared {r : MemoryRecord F} {now : UInt32} : Searchable (prepared r now) ↔ Searchable r := by
  -- the times are set first, the flag after them
  have hflag : ∀ t : MemoryRecord F, (Searchable t ↔ Searchable r) →
      (Searchable (if t.embedding ≠ [] then { t with flags := t.flags ||| RecordFlags.HAS_EMBEDDING } else t) ↔
        Searchable r) := by
    intro t ht
    split
    · exact searchable_withEmbedding.trans ht
    · exact ht
  refine hflag _ ?_
  split <;> rfl

theorem searchable_newVersion (old : MemoryRecord F) (newId : UInt64) (c : Text) (v : List F) (now : UInt32) :
    Searchable (newVersion old newId c v now) := by
  have hflags : RecordFlags.ALIVE &&& RecordFlags.TOMBSTONE = 0 := by decide
  have hnew : Searchable (old.createNewVersion newId now) :=
    ⟨MemoryRecord.isAlive_iff.mpr ⟨not_not.mpr hflags, MemoryPhase.noConfusion, MemoryPhase.noConfusion⟩, rfl⟩
  unfold newVersion
  dsimp only
  split <;> exact hnew

theorem not_searchable_markVersioned (r : MemoryRecord F) : ¬ Searchable r.markVersioned :=
  fun h => MemoryPhase.noConfusion h.2

variable [Floats F]

/-- A call that changes no more than the record it finds, not whether a search
should find it, and inserts no other than such a record, keeps the agreement. -/
theorem IndexAgrees.found (hc : s.Coherent) (h : s.IndexAgrees) {op : Op F} {i : UInt64}
    {f : MemoryRecord F → MemoryRecord F}
    (hi : ∀ id, s.inserts op = some id → op.drops ≠ some id ∧ ∃ r, s.shown id = some r ∧ Searchable r)
    (hw : s.wrote op = [] ∨ s.wrote op = (s.load i).toList.map fun r => (i, f r))
    (hf : ∀ r, op.drops ≠ some i → Searchable r → Searchable (f r)) : (s.exec op).IndexAgrees := by
  rw [indexAgrees_iff_shown] at h ⊢
  intro id hid
  obtain ⟨hdrop, r, hr, hsearch⟩ : op.drops ≠ some id ∧ ∃ r, s.shown id = some r ∧ Searchable r := by
    rcases (s.hnsw_exec op id).mp hid with hins | ⟨hid, hdrop⟩
    · exact hi id hins
    · exact ⟨hdrop, h id hid⟩
  rw [hc.shown_exec op]
  rcases hw with hw | hw
  · rw [hw]
    exact ⟨r, hr, hsearch⟩
  · rw [hw]
    cases hl : s.load i with
    | none => exact ⟨r, hr, hsearch⟩
    | some r₀ =>
      show ∃ r', after s.config.wire s.shown [(i, f r₀)] id = some r' ∧ _
      rw [after_one]
      by_cases he : id = i
      · subst he
        have hshown : s.shown id = some (version s.config.wire r₀) := by rw [shown, hl]; rfl
        rw [hshown] at hr
        cases hr
        exact ⟨_, if_pos rfl, hf r₀ hdrop hsearch⟩
      · exact ⟨r, (if_neg he).trans hr, hsearch⟩

theorem IndexAgrees.fastStore (hc : s.Coherent) (h : s.IndexAgrees) {r : MemoryRecord F} {clock : List ℤ}
    {now : UInt32} (hk : s.KeepsAgreement (.fastStore r clock now)) :
    (s.exec (.fastStore r clock now)).IndexAgrees := by
  rw [indexAgrees_iff_shown] at h ⊢
  intro id hid
  rw [hc.shown_exec, wrote]
  rw [hnsw_exec, inserts, Option.ite_none_right_eq_some] at hid
  cases hstored : (s.fastStore r clock now).2.id with
  | none =>
    rw [hstored] at hid
    exact h id (hid.resolve_left fun hi => nomatch hi.2).1
  | some i =>
    show ∃ r', after s.config.wire s.shown [(i, prepared { r with memoryId := i } now)] id = some r' ∧ _
    rw [after_one]
    by_cases he : id = i
    · subst he
      rw [if_pos rfl]
      refine ⟨_, rfl, searchable_prepared.mpr (hk id hstored ?_)⟩
      exact (hid.symm.imp And.left And.left)
    · rw [if_neg he]
      rw [hstored] at hid
      exact h id (hid.resolve_left fun hi => he (Option.some.inj hi.2).symm).1

theorem wrote_update {i newId : UInt64} {c : Text} {v : List F} {clock : List ℤ} {now : UInt32}
    {old : MemoryRecord F} (hl : s.load i = some old) (hn : (s.update i c v clock now).2.id = some newId) :
    s.wrote (.update i c v clock now) = [(i, old.markVersioned), (newId, newVersion old newId c v now)] := by
  simp [wrote, hl, hn]

theorem IndexAgrees.update (hc : s.Coherent) (h : s.IndexAgrees) {i : UInt64} {c : Text} {v : List F}
    {clock : List ℤ} {now : UInt32} (hk : s.KeepsAgreement (.update i c v clock now)) :
    (s.exec (.update i c v clock now)).IndexAgrees := by
  rw [indexAgrees_iff_shown] at h ⊢
  intro id hid
  rw [hc.shown_exec]
  rw [hnsw_exec, inserts] at hid
  cases hl : s.load i with
  | none =>
    rw [hl] at hid
    rw [wrote, hl]
    exact h id (hid.resolve_left nofun).1
  | some old =>
    rw [hl, Option.bind_some, Option.ite_none_right_eq_some] at hid
    cases hstored : (s.update i c v clock now).2.id with
    | none =>
      rw [hstored] at hid
      rw [wrote, hl, hstored]
      exact h id (hid.resolve_left fun hi => nomatch hi.2).1
    | some newId =>
      rw [wrote_update hl hstored, after_two]
      by_cases hnew : id = newId
      · rw [if_pos hnew]
        exact ⟨_, rfl, searchable_newVersion old newId c v now⟩
      · rw [hstored] at hid
        have hin : s.hnsw id = true := (hid.resolve_left fun hi => hnew (Option.some.inj hi.2).symm).1
        -- the old version is not in the index
        have hold : id ≠ i := by
          rintro rfl
          rcases hk newId hstored with he | he
          · exact hnew he.symm
          · exact Bool.noConfusion (he.symm.trans hin)
        rw [if_neg hnew, if_neg hold]
        exact h id hin

/-- A call that meets the condition keeps the agreement. -/
theorem IndexAgrees.exec (hc : s.Coherent) (h : s.IndexAgrees) {op : Op F} (hk : s.KeepsAgreement op) :
    (s.exec op).IndexAgrees := by
  cases op with
  | fastStore r clock now => exact h.fastStore hc hk
  | update i c v clock now => exact h.update hc hk
  | remove i => exact h.found hc nofun (.inr rfl) fun r hd => absurd rfl hd
  | archive i => exact h.found hc nofun (.inr rfl) fun r hd => absurd rfl hd
  | setEmbedding i v =>
    refine h.found hc (fun id hins => ⟨nofun, ?_⟩) (.inr rfl) fun r _ => searchable_withEmbedding.mpr
    rw [inserts, Option.ite_none_right_eq_some] at hins
    obtain ⟨⟨hsome, hdim⟩, he⟩ := hins
    cases he
    obtain ⟨r, hr⟩ := Option.isSome_iff_exists.mp hsome
    exact ⟨version s.config.wire r, by rw [shown, hr]; rfl, hk r hr hdim⟩
  | boostImportance i delta =>
    refine h.found hc nofun (i := i) (f := boosted delta) ?_ fun r _ hr => hr
    unfold wrote
    dsimp only
    split
    · exact .inr rfl
    · exact .inl rfl
  | updateInPlace i c =>
    refine h.found hc nofun (i := i) (f := fun r => { r with content := c }) ?_ fun r _ hr => hr
    unfold wrote
    dsimp only
    split
    · exact .inr rfl
    · exact .inl rfl
  | flush => exact h.found hc nofun (i := 0) (f := id) (.inl rfl) fun r _ hr => hr
  | getCached i now => exact h.found hc nofun (i := i) (f := id) (.inl rfl) fun r _ hr => hr

/-- A call after which they agree meets the condition. -/
theorem keepsAgreement_of_agrees (hc : s.Coherent) {op : Op F} (h : (s.exec op).IndexAgrees) :
    s.KeepsAgreement op := by
  rw [indexAgrees_iff_shown, hc.shown_exec op] at h
  cases op with
  | fastStore r clock now =>
    intro id hstored hindex
    have hid : (s.exec (.fastStore r clock now)).hnsw id = true := by
      rw [hnsw_exec, inserts, Option.ite_none_right_eq_some]
      rcases hindex with hindex | hindex
      · exact .inr ⟨hindex, nofun⟩
      · exact .inl ⟨hindex, hstored⟩
    obtain ⟨r', hr', hsearch⟩ := h id hid
    have hw : s.wrote (.fastStore r clock now) = [(id, prepared { r with memoryId := id } now)] := by
      rw [wrote, hstored]
      rfl
    rw [hw, after_one, if_pos rfl] at hr'
    rw [← Option.some.inj hr', searchable_version, searchable_prepared] at hsearch
    exact hsearch
  | update i c v clock now =>
    intro newId hstored
    by_contra hne
    obtain ⟨hne, hi⟩ := not_or.mp hne
    have hid : (s.exec (.update i c v clock now)).hnsw i = true := by
      rw [hnsw_exec]
      exact .inr ⟨Bool.eq_true_of_not_eq_false hi, nofun⟩
    obtain ⟨old, hl⟩ : ∃ old, s.load i = some old := by
      cases hl : s.load i with
      | some old => exact ⟨old, rfl⟩
      | none =>
        rw [MemoryStore.update, hl] at hstored
        cases hstored
    obtain ⟨r', hr', hsearch⟩ := h i hid
    rw [wrote_update hl hstored, after_two, if_neg (Ne.symm hne), if_pos rfl] at hr'
    rw [← Option.some.inj hr', searchable_version] at hsearch
    exact not_searchable_markVersioned old hsearch
  | setEmbedding i v =>
    intro r hr hdim
    have hid : (s.exec (.setEmbedding i v)).hnsw i = true := by
      rw [hnsw_exec, inserts, Option.ite_none_right_eq_some]
      exact .inl ⟨⟨Option.isSome_of_eq_some hr, hdim⟩, rfl⟩
    obtain ⟨r', hr', hsearch⟩ := h i hid
    have hw : s.wrote (.setEmbedding i v) = [(i, withEmbedding v r)] := by
      rw [wrote, hr]
      rfl
    rw [hw, after_one, if_pos rfl] at hr'
    rw [← Option.some.inj hr', searchable_version, searchable_withEmbedding] at hsearch
    exact hsearch
  | _ => trivial

end Agreement

/-! ### Runs -/

/-- After every call of a run the ids in the index are those of live, active
records, exactly when every call of the run keeps them so. -/
theorem indexAgrees_calls_iff [Floats F] (s : MemoryStore F) (hc : s.Coherent) (hs : s.IndexAgrees)
    (ops : List (Op F)) :
    (∀ pre, pre <+: ops → (run exec s pre).IndexAgrees) ↔ Along exec KeepsAgreement s ops :=
  Run.along_iff_of_inv (I := fun _ s => Coherent s ∧ IndexAgrees s) (P := fun _ s => IndexAgrees s)
    (D := fun _ _ => True) (fun _ _ op h _ hk => ⟨h.1.exec op, h.2.exec h.1 hk⟩) (fun _ _ h => h.2)
    (fun _ _ _ h _ ha => keepsAgreement_of_agrees h.1 ha) ⟨hc, hs⟩ (Run.along_true _ _)

theorem indexAgrees_new (c : Config F) : (new c).IndexAgrees := fun _ h => Bool.noConfusion h

/-- A record with an embedding for an index of dimension 1. -/
def embedded : MemoryRecord ℤ := { MemoryRecord.zero with memoryId := 1, embedding := [1] }

def oneDimension : MemoryStore ℤ := new ⟨1, 3, 6, 10, 7, 100, .whole⟩

/-- The record is stored, archived, given an embedding that does not fit, and
removed. -/
def archivedThenRemoved : List (Op ℤ) :=
  [.fastStore embedded [] 1, .setEmbedding 1 [2], .archive 1, .setEmbedding 1 [3, 4], .remove 1, .flush]

/-- The record is stored and updated. -/
def storedThenUpdated : List (Op ℤ) := [.fastStore embedded [] 1, .update 1 [65] [] [1735689600001] 2]

/-- The calls, and tables that are merged behind them with no change. -/
def archivedThenMerged : List (Paused (Op ℤ) (Answers ℤ)) :=
  archivedThenRemoved.map .op ++ [.pause (run exec oneDimension archivedThenRemoved).lsm]

end MemoryStore
end Memory
end Amind
