/-
# The two directions of the lineage index

The record of a child is replaced when it is recorded again, while the sets of
its former parents keep it; the removal of a node clears the sets of the parents
its record names then, and its own set, while the records of its children keep
its name. So the two directions can part (`agree_iff` says when), and a snapshot,
from whose records the sets are built anew, brings back what the records say:
`reopened_iff` says which pairs of a parent and a child a new index then answers
otherwise than the one that wrote it.
-/
import Amind.Lineage.Histories

namespace Amind
namespace Lineage

open Amind.Core Journal
open Run (run Along)

namespace LineageIndex

variable (x : LineageIndex)

def getParents (child : UInt64) : List UInt64 :=
  match x.childToRecord.lookup child with
  | none => []
  | some r => r.parentIds

/-- The children listed for a parent, in no order. -/
def getChildren (parent : UInt64) : List UInt64 := (x.parentToChildren.lookup parent).getD []

def getLineageOp (child : UInt64) : LineageOp :=
  match x.childToRecord.lookup child with
  | none => .none
  | some r => r.op

def hasLiveParents (child : UInt64) : Bool :=
  match x.childToRecord.lookup child with
  | none => false
  | some r => r.parentIds.any (· ∉ x.removedNodes)

/-- The set of a parent has no id twice. -/
def Sets : Prop := ∀ parent, (x.getChildren parent).Nodup

/-! ### One set of children -/

section Sets

variable {m : AList fun _ : UInt64 => List UInt64} {child c p q : UInt64}

theorem mem_addChild : c ∈ ((addChild child m p).lookup q).getD [] ↔ (c = child ∧ q = p) ∨
    c ∈ (m.lookup q).getD [] := by
  unfold addChild
  by_cases hq : q = p
  · subst hq
    simp [AList.lookup_insert, List.mem_insert_iff]
  · rw [AList.lookup_insert_ne hq]
    simp [hq]

theorem mem_foldl_addChild : ∀ (ps : List UInt64) (m : AList fun _ : UInt64 => List UInt64),
    c ∈ ((ps.foldl (addChild child) m).lookup q).getD [] ↔ (c = child ∧ q ∈ ps) ∨ c ∈ (m.lookup q).getD []
  | [], m => by simp
  | p :: ps, m => by
    rw [List.foldl_cons, mem_foldl_addChild ps, mem_addChild, List.mem_cons, and_or_left, or_assoc, or_left_comm]

theorem nodup_addChild (h : ∀ q, ((m.lookup q).getD []).Nodup) (q : UInt64) :
    (((addChild child m p).lookup q).getD []).Nodup := by
  unfold addChild
  by_cases hq : q = p
  · subst hq
    rw [AList.lookup_insert]
    exact (h q).insert
  · rw [AList.lookup_insert_ne hq]
    exact h q

theorem nodup_foldl_addChild : ∀ (ps : List UInt64) {m : AList fun _ : UInt64 => List UInt64},
    (∀ q, ((m.lookup q).getD []).Nodup) → ∀ q, (((ps.foldl (addChild child) m).lookup q).getD []).Nodup
  | [], _, h => h
  | _ :: ps, _, h => nodup_foldl_addChild ps (nodup_addChild h)

theorem lookup_dropChild : ((dropChild child m p).lookup q).getD [] =
    if q = p then ((m.lookup q).getD []).erase child else (m.lookup q).getD [] := by
  unfold dropChild
  by_cases hq : q = p
  · subst hq
    rw [if_pos rfl]
    cases hm : m.lookup q with
    | none => simp [hm]
    | some children =>
      dsimp only
      split
      · rename_i hnil
        rw [AList.lookup_erase]
        exact hnil.symm
      · rw [AList.lookup_insert]
        rfl
  · rw [if_neg hq]
    cases m.lookup p with
    | none => rfl
    | some children =>
      dsimp only
      split
      · rw [AList.lookup_erase_ne hq]
      · rw [AList.lookup_insert_ne hq]

theorem nodup_dropChild (h : ∀ q, ((m.lookup q).getD []).Nodup) (q : UInt64) :
    (((dropChild child m p).lookup q).getD []).Nodup := by
  rw [lookup_dropChild]
  split
  · exact (h q).erase _
  · exact h q

theorem mem_dropChild (h : ∀ q, ((m.lookup q).getD []).Nodup) :
    c ∈ ((dropChild child m p).lookup q).getD [] ↔ c ∈ (m.lookup q).getD [] ∧ ¬ (c = child ∧ q = p) := by
  rw [lookup_dropChild]
  split
  · rename_i hq
    rw [(h q).mem_erase_iff]
    simp [hq, and_comm]
  · rename_i hq
    simp [hq]

theorem foldl_dropChild : ∀ (ps : List UInt64) {m : AList fun _ : UInt64 => List UInt64},
    (∀ q, ((m.lookup q).getD []).Nodup) → (∀ q, (((ps.foldl (dropChild child) m).lookup q).getD []).Nodup) ∧
      ∀ c q, c ∈ ((ps.foldl (dropChild child) m).lookup q).getD [] ↔
        c ∈ (m.lookup q).getD [] ∧ ¬ (c = child ∧ q ∈ ps)
  | [], m, h => ⟨h, by simp⟩
  | p :: ps, m, h => by
    obtain ⟨hnodup, hmem⟩ := foldl_dropChild ps (nodup_dropChild h)
    refine ⟨hnodup, fun c q => ?_⟩
    rw [List.foldl_cons, hmem, mem_dropChild h, List.mem_cons, and_assoc, ← not_or, ← and_or_left]

end Sets

/-! ### The operations -/

variable {x}

theorem sets_empty : Sets {} := fun _ => List.nodup_nil

theorem Sets.record (h : x.Sets) (r : LineageRecord) : (x.record r).Sets :=
  nodup_foldl_addChild r.parentIds h

theorem Sets.remove (h : x.Sets) (id : UInt64) : (x.remove id).Sets := by
  intro parent
  have herase : ∀ {m : AList fun _ : UInt64 => List UInt64}, (∀ q, ((m.lookup q).getD []).Nodup) →
      (((m.erase id).lookup parent).getD []).Nodup := by
    intro m hm
    by_cases hp : parent = id
    · rw [hp, AList.lookup_erase]
      exact List.nodup_nil
    · rw [AList.lookup_erase_ne hp]
      exact hm parent
  unfold getChildren LineageIndex.remove
  dsimp only
  split
  · exact herase (foldl_dropChild _ h).1
  · exact herase h

theorem mem_getChildren_record {r : LineageRecord} {p c : UInt64} :
    c ∈ (x.record r).getChildren p ↔ (c = r.childId ∧ p ∈ r.parentIds) ∨ c ∈ x.getChildren p :=
  mem_foldl_addChild r.parentIds x.parentToChildren

theorem mem_getChildren_remove (h : x.Sets) {id p c : UInt64} :
    c ∈ (x.remove id).getChildren p ↔ c ∈ x.getChildren p ∧ p ≠ id ∧ ¬ (c = id ∧ p ∈ x.getParents id) := by
  unfold getChildren LineageIndex.remove getParents
  dsimp only
  by_cases hp : p = id
  · subst hp
    split <;> simp
  · cases hr : x.childToRecord.lookup id with
    | none => simp [AList.lookup_erase_ne hp, hp]
    | some r =>
      dsimp only
      rw [AList.lookup_erase_ne hp, (foldl_dropChild r.parentIds h).2]
      simp [hp]

theorem getParents_record {r : LineageRecord} {c : UInt64} :
    (x.record r).getParents c = if c = r.childId then r.parentIds else x.getParents c := by
  unfold getParents LineageIndex.record
  by_cases hc : c = r.childId
  · subst hc
    simp
  · simp [hc]

theorem getParents_remove {id c : UInt64} : (x.remove id).getParents c = if c = id then [] else x.getParents c := by
  unfold getParents LineageIndex.remove
  by_cases hc : c = id
  · subst hc
    simp
  · simp [hc]

/-- The change writes the pair of a parent and a child. -/
def Writes (x : LineageIndex) : Change → UInt64 → UInt64 → Prop
  | .recordLineage child parents _ _, p, c => c = child ∧ p ∈ parents
  | .removeNode id, p, c => p = id ∨ c = id ∧ p ∈ x.getParents id
  | .markRemoved _, _, _ => False

/-- Whether it lists the child then. -/
def Lists : Change → Prop
  | .recordLineage .. => True
  | _ => False

/-- A change lists or drops the pairs it writes and leaves the others. -/
theorem mem_getChildren_applyTo (h : x.Sets) (ch : Change) {p c : UInt64} :
    c ∈ (ch.applyTo x).getChildren p ↔ (x.Writes ch p c ∧ Lists ch) ∨ (¬ x.Writes ch p c ∧ c ∈ x.getChildren p) := by
  cases ch with
  | recordLineage child parents op now =>
    rw [Change.applyTo, mem_getChildren_record]
    by_cases hw : c = child ∧ p ∈ parents <;> simp [Writes, Lists, hw]
  | removeNode id =>
    rw [Change.applyTo, mem_getChildren_remove h, ← not_or]
    simp only [Writes, LineageIndex.Lists, and_false, false_or]
    exact and_comm
  | markRemoved id =>
    simp only [Writes, LineageIndex.Lists, and_false, not_false_eq_true, true_and, false_or]
    rfl

theorem Sets.applyTo (h : x.Sets) (ch : Change) : (ch.applyTo x).Sets := by
  cases ch with
  | recordLineage child parents op now => exact h.record _
  | removeNode id => exact h.remove id
  | markRemoved id => exact h

end LineageIndex

/-! ### When the directions agree -/

/-- An index with the ids that `removeNode` was called on. -/
structure Watched where
  index : LineageIndex := {}
  removed : List UInt64 := []

namespace Watched

open LineageIndex

def step (w : Watched) (ch : Change) : Watched where
  index := ch.applyTo w.index
  removed :=
    match ch with
    | .removeNode id => id :: w.removed
    | _ => w.removed

/-- The directions agree on the parents that were not removed. -/
def Agree (removed : List UInt64) (x : LineageIndex) : Prop :=
  ∀ p c, p ∉ removed → (c ∈ x.getChildren p ↔ p ∈ x.getParents c)

/-- A child is recorded again with all its parents that were not removed. -/
def KeepsParents (w : Watched) : Change → Prop
  | .recordLineage child parents _ _ => ∀ p ∈ w.index.getParents child, p ∈ parents ∨ p ∈ w.removed
  | _ => True

instance (w : Watched) : ∀ ch, Decidable (w.KeepsParents ch)
  | .recordLineage child parents _ _ =>
    List.decidableBAll (fun p => p ∈ parents ∨ p ∈ w.removed) (w.index.getParents child)
  | .removeNode _ | .markRemoved _ => inferInstanceAs (Decidable True)

/-- What the argument carries along a history. -/
structure Inv (h : List Change) (w : Watched) : Prop where
  sets : w.index.Sets
  removed : ∀ p, p ∈ w.removed ↔ .removeNode p ∈ h
  agree : Agree w.removed w.index

variable {w : Watched} {h : List Change}

theorem Inv.step (hi : Inv h w) {ch : Change} (hk : w.KeepsParents ch) : Inv (h ++ [ch]) (w.step ch) := by
  refine ⟨hi.sets.applyTo ch, fun p => ?_, fun p c hp => ?_⟩
  · rw [List.mem_append, List.mem_singleton, ← hi.removed]
    cases ch with
    | removeNode id => simp [Watched.step, or_comm]
    | recordLineage child parents op now => simp [Watched.step]
    | markRemoved id => simp [Watched.step]
  · have hchildren : c ∈ (w.step ch).index.getChildren p ↔ _ := mem_getChildren_applyTo hi.sets ch
    rw [hchildren]
    cases ch with
    | recordLineage child parents op now =>
      have hagree := hi.agree p c hp
      have hparents : (w.step (.recordLineage child parents op now)).index.getParents c = _ := getParents_record
      rw [hparents]
      simp only [Writes, LineageIndex.Lists, and_true]
      by_cases hc : c = child
      · subst hc
        have hkept : p ∈ w.index.getParents c → p ∈ parents := fun hin => (hk p hin).resolve_right hp
        rw [if_pos rfl, hagree]
        constructor
        · rintro (⟨-, hp⟩ | ⟨-, hp⟩)
          · exact hp
          · exact hkept hp
        · exact fun hp => .inl ⟨rfl, hp⟩
      · simp [hc, ← hagree]
    | removeNode id =>
      have hne : p ≠ id ∧ p ∉ w.removed := by simpa [Watched.step] using hp
      have hagree := hi.agree p c hne.2
      have hparents : (w.step (.removeNode id)).index.getParents c = _ := getParents_remove
      rw [hparents]
      simp only [Writes, LineageIndex.Lists, and_false, false_or]
      by_cases hc : c = id
      · subst hc
        rw [if_pos rfl, hagree]
        simp
      · simp [hc, hne.1, ← hagree]
    | markRemoved id =>
      simp only [Writes, LineageIndex.Lists, and_false, false_or, not_false_eq_true, true_and]
      exact hi.agree p c hp

/-- A parent that a record drops keeps the child in its set. -/
theorem Inv.keepsParents (hi : Inv h w) {ch : Change} (ha : Agree (w.step ch).removed (w.step ch).index) :
    w.KeepsParents ch := by
  cases ch with
  | recordLineage child parents op now =>
    intro p hp
    by_contra hno
    push Not at hno
    have hin : child ∈ w.index.getChildren p := (hi.agree p child hno.2).mpr hp
    have hstill : child ∈ (w.step (.recordLineage child parents op now)).index.getChildren p :=
      mem_getChildren_record.mpr (.inr hin)
    have hparents : (w.step (.recordLineage child parents op now)).index.getParents child = _ := getParents_record
    have := (ha p child hno.2).mp hstill
    rw [hparents, if_pos rfl] at this
    exact hno.1 this
  | removeNode id => trivial
  | markRemoved id => trivial

/-- **The two directions of the index agree after every call, on all parents that
`removeNode` was never called on, if and only if every record of a child names
again the parents of its former record that were not removed.** -/
theorem agree_iff (os : List Change) :
    (∀ pre, pre <+: os → ∀ p c, .removeNode p ∉ pre →
      (c ∈ (run step {} pre).index.getChildren p ↔ p ∈ (run step {} pre).index.getParents c)) ↔
    Along step KeepsParents {} os := by
  have hstart : Inv [] {} := ⟨sets_empty, by simp, fun p c _ => by simp [getChildren, getParents]⟩
  refine Run.along_iff_of_inv (I := Inv) (D := fun _ _ => True)
    (P := fun h w => ∀ p c, .removeNode p ∉ h → (c ∈ w.index.getChildren p ↔ p ∈ w.index.getParents c))
    (fun h w ch hi _ hk => hi.step hk) (fun h w hi p c hp => hi.agree p c fun hin => hp ((hi.removed p).mp hin))
    (fun h w ch hi _ hP => hi.keepsParents fun p c hp => hP p c fun hin => hp ?_) hstart (Run.along_true _ _)
  -- the ids of the state are those of the history
  rw [List.mem_append, List.mem_singleton, ← hi.removed] at hin
  rcases hin with hin | rfl
  · cases ch with
    | removeNode id => exact List.mem_cons_of_mem _ hin
    | recordLineage child parents op now => exact hin
    | markRemoved id => exact hin
  · exact List.mem_cons_self

/-- A child is recorded with one parent and then with another. -/
def parentChanged : List Change := [.recordLineage 5 [1] .infer 10, .recordLineage 5 [2] .infer 11]

theorem child_stays_listed :
    5 ∈ (run step {} parentChanged).index.getChildren 1 ∧ 1 ∉ (run step {} parentChanged).index.getParents 5 ∧
      Change.removeNode 1 ∉ parentChanged := by
  decide +kernel

end Watched

/-! ### What a new index answers -/

theorem SnapshotRecord.count_lt {bs rest : Bytes} {childId op count createdAt : ℕ}
    (h : SnapshotRecord.readEntry bs = some ((childId, op, count, createdAt), rest)) : count < 65536 := by
  obtain ⟨⟨childId', bs1⟩, -, h⟩ := Option.bind_eq_some_iff.mp h
  obtain ⟨⟨op', bs2⟩, -, h⟩ := Option.bind_eq_some_iff.mp h
  obtain ⟨⟨count', bs3⟩, hcount, h⟩ := Option.bind_eq_some_iff.mp h
  obtain ⟨⟨createdAt', bs4⟩, -, h⟩ := Option.bind_eq_some_iff.mp h
  obtain ⟨hfields, -⟩ := Prod.mk.inj (Option.some.inj h)
  obtain ⟨-, -, rfl, -⟩ := hfields
  exact (ByteReader.number_eq_some hcount).1

theorem SnapshotRecord.fits_readAll : ∀ (n : ℕ) (bs : Bytes), ∀ r ∈ (SnapshotRecord.readAll n bs).1, r.Fits
  | 0, _, _, hr => absurd hr List.not_mem_nil
  | n + 1, bs, r, hr => by
    unfold SnapshotRecord.readAll at hr
    split at hr
    · cases hr
    · rename_i childId op count createdAt rest hentry
      have hcount : count < 65536 := SnapshotRecord.count_lt hentry
      split at hr
      · cases hr
      · rename_i parents rest' hids
        rcases List.mem_cons.mp hr with rfl | hr
        · exact (readIds_eq_some hids).1.trans_lt hcount
        · exact fits_readAll n rest' r hr

theorem fits_loadSnapshot {file : Option Bytes} : ∀ r ∈ (loadSnapshot file).1, r.Fits := by
  intro r hr
  unfold loadSnapshot at hr
  split at hr
  · cases hr
  · split at hr
    · cases hr
    · split at hr
      · cases hr
      · exact SnapshotRecord.fits_readAll _ _ r hr

namespace LineageIndex

variable {x : LineageIndex}

theorem Sets.replayEntry (h : x.Sets) (e : WalEntry) : (x.replayEntry e).Sets := by
  unfold LineageIndex.replayEntry
  split
  · exact h.record _
  · split
    · exact h.remove _
    · split
      · exact h
      · exact h

theorem sets_load (rs : List SnapshotRecord) (ids : List UInt64) : (load (rs, ids)).Sets := by
  have hrecords : (rs.foldl (fun (x : LineageIndex) r => x.record r.toRecord) {}).Sets :=
    List.foldlRecOn (motive := Sets) rs _ sets_empty fun _ h _ _ => h.record _
  exact List.foldlRecOn (motive := Sets) ids _ hrecords fun _ h _ _ => h

theorem sets_recover (d : Dir) : (recover d).Sets :=
  List.foldlRecOn (motive := Sets) _ _ (sets_load _ _) fun _ h _ _ => h.replayEntry _

theorem Fits.record (h : x.Fits) {r : LineageRecord} (hr : r.parentIds.length < 65536) : (x.record r).Fits := by
  intro child r' hl
  by_cases hc : child = r.childId
  · rw [hc, LineageIndex.record, AList.lookup_insert] at hl
    exact Option.some.inj hl ▸ hr
  · rw [LineageIndex.record, AList.lookup_insert_ne hc] at hl
    exact h child r' hl

theorem Fits.replayEntry (h : x.Fits) {e : WalEntry} (he : e.Fits) : (x.replayEntry e).Fits := by
  unfold LineageIndex.replayEntry
  split
  · exact h.record he
  · split
    · exact OpenIndex.fits_change (c := .removeNode e.nodeId) h (Nat.zero_lt_succ _)
    · split
      · exact h
      · exact h

/-- The counts of a file are of 16 bits, so what is read from it fits. -/
theorem fits_recover {d : Dir} (hd : ∀ e ∈ replay d.wal, e.Fits) : (recover d).Fits := by
  have hempty : Fits {} := fun _ _ h => by simp at h
  have hrecords : ((loadSnapshot d.snapshot).1.foldl (fun (x : LineageIndex) r => x.record r.toRecord) {}).Fits :=
    List.foldlRecOn (motive := Fits) _ _ hempty fun _ h r hr => h.record (fits_loadSnapshot r hr)
  have hload : (load (loadSnapshot d.snapshot)).Fits :=
    List.foldlRecOn (motive := Fits) _ _ hrecords fun _ h _ _ => h
  exact List.foldlRecOn (motive := Fits) _ _ hload fun _ h e he => h.replayEntry (hd e he)

theorem mem_getChildren_records {p c : UInt64} : ∀ (rs : List SnapshotRecord) (x : LineageIndex),
    c ∈ (rs.foldl (fun x r => x.record r.toRecord) x).getChildren p ↔
      (∃ r ∈ rs, c = r.childId ∧ p ∈ r.parentIds) ∨ c ∈ x.getChildren p
  | [], x => by simp
  | r :: rs, x => by
    rw [List.foldl_cons, mem_getChildren_records rs, mem_getChildren_record]
    simp only [List.mem_cons, exists_eq_or_imp, SnapshotRecord.toRecord]
    rw [or_left_comm, or_assoc]

/-- The sets of a loaded index are those of its records. -/
theorem mem_getChildren_load {p c : UInt64} (rs : List SnapshotRecord) (ids : List UInt64) :
    c ∈ (load (rs, ids)).getChildren p ↔ ∃ r ∈ rs, c = r.childId ∧ p ∈ r.parentIds := by
  have hmarks : ∀ (ids : List UInt64) (x : LineageIndex), (ids.foldl mark x).getChildren p = x.getChildren p := by
    intro ids
    induction ids with
    | nil => exact fun _ => rfl
    | cons id ids ih => exact fun x => ih (x.mark id)
  rw [load, hmarks, mem_getChildren_records]
  simp [getChildren]

/-- The records a checkpoint writes name the parents the index answers. -/
theorem gatherRecords_parents (o : Orders) (h : x.Own) {p c : UInt64} :
    (∃ r ∈ x.gatherRecords o, c = r.childId ∧ p ∈ r.parentIds) ↔ p ∈ x.getParents c := by
  constructor
  · rintro ⟨s, hs, rfl, hp⟩
    obtain ⟨child, r, hr, rfl⟩ := mem_gatherRecords.mp hs
    have hown : r.childId = child := h child r hr
    rw [getParents, show (SnapshotRecord.ofRecord r).childId = child from hown, hr]
    exact hp
  · intro hp
    unfold getParents at hp
    cases hr : x.childToRecord.lookup c with
    | none =>
      rw [hr] at hp
      cases hp
    | some r =>
      rw [hr] at hp
      exact ⟨_, mem_gatherRecords.mpr ⟨c, r, hr, rfl⟩, (h c r hr).symm, hp⟩

theorem getParents_congr {y : LineageIndex} (h : x.view = y.view) (c : UInt64) : x.getParents c = y.getParents c := by
  unfold getParents
  rw [(sameLineage_iff.mpr h).1 c]

/-- The indexes answer alike. -/
structure SameAnswers (x y : LineageIndex) : Prop where
  parents : ∀ id, x.getParents id = y.getParents id
  children : ∀ id c, c ∈ x.getChildren id ↔ c ∈ y.getChildren id
  op : ∀ id, x.getLineageOp id = y.getLineageOp id
  live : ∀ id, x.hasLiveParents id = y.hasLiveParents id

/-- Indexes with the same records answer alike but for the children. -/
theorem sameAnswers_iff {y : LineageIndex} (h : x.view = y.view) :
    SameAnswers x y ↔ ∀ p c, c ∈ x.getChildren p ↔ c ∈ y.getChildren p := by
  obtain ⟨hrecord, hremoved⟩ := sameLineage_iff.mpr h
  refine ⟨fun hs => hs.children, fun hc => ⟨getParents_congr h, hc, fun id => ?_, fun id => ?_⟩⟩
  · rw [getLineageOp, getLineageOp, hrecord]
  · rw [hasLiveParents, hasLiveParents, hrecord]
    simp only [hremoved]

end LineageIndex

namespace OpenIndex

open LineageIndex

variable {s : OpenIndex}

theorem Synced.recover_append (h : s.Synced) {ch : Change} (hc : ch.entry.Fits) :
    recover (s.dir.append ch.entry.encode) = ch.applyTo (recover s.dir) := by
  obtain ⟨es, hes, hwal⟩ := h.whole
  have hnew : ∀ e ∈ es ++ [ch.entry], e.Fits :=
    fun e he => (List.mem_append.mp he).elim (hes e) fun h => List.mem_singleton.mp h ▸ hc
  have hreplay : replay (s.dir.append ch.entry.encode).wal = replay s.dir.wal ++ [ch.entry] := by
    have hall := replay_encode hnew
    rw [List.flatMap_append, List.flatMap_singleton, ← hwal] at hall
    rw [hwal, replay_encode hes]
    exact hall
  rw [recover, hreplay, List.foldl_append, applyTo_eq]
  rfl

theorem Synced.mem_getChildren_checkpoint (h : s.Synced) {o : Orders} (hc : s.Counts (.checkpoint o)) {p c : UInt64} :
    c ∈ (recover (s.dir.checkpoint (s.snapshot o))).getChildren p ↔ p ∈ s.index.getParents c := by
  have hfits : ∀ r ∈ s.index.gatherRecords o, r.Fits := by
    intro s hs
    obtain ⟨child, r, hr, rfl⟩ := mem_gatherRecords.mp hs
    exact h.fits child r hr
  have hload : recover (s.dir.checkpoint (s.snapshot o)) =
      load (s.index.gatherRecords o, o.removed s.index.removedNodes) := by
    rw [Dir.checkpoint_eq, recover, snapshot, loadSnapshot_snapshotBytes hfits hc.1 hc.2]
    rfl
  rw [hload, mem_getChildren_load, gatherRecords_parents o h.own]

/-- The pairs of a parent and a child left open by a step: a checkpoint leaves
those on which the directions do not agree, a change settles those it writes. -/
def leaves (s : OpenIndex) (left : UInt64 → UInt64 → Prop) : IndexOp → UInt64 → UInt64 → Prop
  | .change ch => fun p c => left p c ∧ ¬ s.index.Writes ch p c
  | .checkpoint _ => fun p c => ¬ (c ∈ s.index.getChildren p ↔ p ∈ s.index.getParents c)
  | .reopen => fun _ _ => False

/-- The pairs left open by a history. -/
def leftOpen : OpenIndex → (UInt64 → UInt64 → Prop) → List IndexOp → UInt64 → UInt64 → Prop
  | _, left, [] => left
  | s, left, o :: os => leftOpen (s.step o) (s.leaves left o) os

/-- The pairs on which a new index answers otherwise. -/
def Apart (s : OpenIndex) (p c : UInt64) : Prop :=
  ¬ (c ∈ (recover s.dir).getChildren p ↔ c ∈ s.index.getChildren p)

theorem Synced.apart_step (h : s.Synced) (hsets : s.index.Sets) {o : IndexOp} (hc : s.Counts o) :
    (s.step o).Apart = s.leaves s.Apart o := by
  funext p c
  unfold Apart
  cases o with
  | change ch =>
    have hrec : recover (s.step (.change ch)).dir = ch.applyTo (recover s.dir) := h.recover_append hc
    have hview : (recover s.dir).view = s.index.view := (view_recover _).trans h.view.symm
    have hwrites : (recover s.dir).Writes ch p c ↔ s.index.Writes ch p c := by
      cases ch with
      | removeNode id => simp only [Writes, getParents_congr hview]
      | recordLineage child parents op now => exact Iff.rfl
      | markRemoved id => exact Iff.rfl
    have hlive : c ∈ (s.step (.change ch)).index.getChildren p ↔ _ := mem_getChildren_applyTo hsets ch
    rw [hrec, mem_getChildren_applyTo (sets_recover _) ch, hlive, hwrites, leaves]
    refine propext ?_
    by_cases hw : s.index.Writes ch p c <;> simp [hw]
  | checkpoint o =>
    have hrec : c ∈ (recover (s.step (.checkpoint o)).dir).getChildren p ↔ _ := h.mem_getChildren_checkpoint hc
    rw [hrec, leaves]
    exact propext (not_congr Iff.comm)
  | reopen => simp [OpenIndex.step, leaves]

theorem apart_run : ∀ (os : List IndexOp) {s : OpenIndex}, s.Synced → s.index.Sets → Along step Counts s os →
    (run step s os).Apart = leftOpen s s.Apart os ∧ (run step s os).Synced
  | [], _, h, _, _ => ⟨rfl, h⟩
  | o :: os, s, h, hsets, hc => by
    have hnext : (s.step o).index.Sets := by
      cases o with
      | change ch => exact hsets.applyTo ch
      | checkpoint o => exact hsets
      | reopen => exact sets_recover _
    obtain ⟨hapart, hsynced⟩ := apart_run os (h.step hc.1) hnext hc.2
    refine ⟨?_, hsynced⟩
    rw [Run.run_cons, hapart, h.apart_step hsets hc.1]
    rfl

/-- **A new index on the directory answers as the index that wrote it, after any
history, if and only if no pair is left open.** -/
theorem reopened_iff {d : Dir} {es : List WalEntry} (hes : ∀ e ∈ es, e.Fits) (hd : d.wal = es.flatMap WalEntry.encode)
    {os : List IndexOp} (hc : Along step Counts ⟨recover d, d⟩ os) :
    SameAnswers (recover (run step ⟨recover d, d⟩ os).dir) (run step ⟨recover d, d⟩ os).index ↔
      ∀ p c, ¬ leftOpen ⟨recover d, d⟩ (fun _ _ => False) os p c := by
  have hfits : (recover d).Fits := fits_recover (by rwa [hd, replay_encode hes])
  have hstart : (⟨recover d, d⟩ : OpenIndex).Synced := ⟨own_recover d, hfits, ⟨es, hes, hd⟩, view_recover d⟩
  have hnone : (⟨recover d, d⟩ : OpenIndex).Apart = fun _ _ => False := by
    funext p c
    simp [Apart]
  obtain ⟨hapart, hsynced⟩ := apart_run os hstart (sets_recover d) hc
  rw [hnone] at hapart
  rw [← hapart, sameAnswers_iff ((view_recover _).trans hsynced.view.symm)]
  unfold Apart
  simp only [not_not]

/-- The tables in their own order. -/
def asListed : Orders := ⟨fun l => l, fun _ => .refl _, fun l => l, fun _ => .refl _⟩

theorem reopened_child :
    SameAnswers (recover (run step ⟨recover {}, {}⟩ [.change (.recordLineage 5 [1] .infer 10), .checkpoint asListed,
        .change (.markRemoved 1)]).dir)
      (run step ⟨recover {}, {}⟩ [.change (.recordLineage 5 [1] .infer 10), .checkpoint asListed,
        .change (.markRemoved 1)]).index := by
  have hd : Dir.wal {} = [].flatMap WalEntry.encode := rfl
  refine (reopened_iff (fun e he => absurd he List.not_mem_nil) hd (by decide +kernel)).mpr fun p c hopen => hopen.1 ?_
  have hchild : c ∈ ((recover {}).record ⟨5, [1], .infer, 10⟩).getChildren p ↔ (c = 5 ∧ p ∈ [1]) ∨ _ :=
    mem_getChildren_record
  have hparent : ((recover {}).record ⟨5, [1], .infer, 10⟩).getParents c = if c = 5 then [1] else _ := getParents_record
  show c ∈ ((recover {}).record ⟨5, [1], .infer, 10⟩).getChildren p ↔
    p ∈ ((recover {}).record ⟨5, [1], .infer, 10⟩).getParents c
  have hnone : recover {} = {} := rfl
  rw [hchild, hparent, hnone]
  by_cases hc : c = 5 <;> simp [hc, getChildren, getParents]

-- a child with a new parent, and one whose parent is removed
theorem reopened_apart :
    ¬ SameAnswers (recover (run step ⟨recover {}, {}⟩ [.change (.recordLineage 5 [1] .infer 10),
        .change (.recordLineage 5 [2] .infer 11), .checkpoint asListed]).dir)
      (run step ⟨recover {}, {}⟩ [.change (.recordLineage 5 [1] .infer 10), .change (.recordLineage 5 [2] .infer 11),
        .checkpoint asListed]).index ∧
    ¬ SameAnswers (recover (run step ⟨recover {}, {}⟩ [.change (.recordLineage 5 [1] .infer 10),
        .change (.removeNode 1), .checkpoint asListed]).dir)
      (run step ⟨recover {}, {}⟩ [.change (.recordLineage 5 [1] .infer 10), .change (.removeNode 1),
        .checkpoint asListed]).index :=
  ⟨fun h => absurd (h.children 1 5) (by decide +kernel), fun h => absurd (h.children 1 5) (by decide +kernel)⟩

end OpenIndex

end Lineage
end Amind
