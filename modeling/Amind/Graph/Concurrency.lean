/-
# Concurrent calls on the graph store

A call that changes the edges appends its record to the log, under the lock of
the log, and applies it to the store later, under the lock of the store. A
checkpoint holds the lock of the store while it gathers the edges and has them
written and the log cut. So another call can come between the two steps of a
change: a checkpoint then cuts a record whose change is in neither the snapshot
nor the log, and two changes of one edge can be applied in one order and logged
in the other.

`recover_run` says that these two are all that goes wrong: if no checkpoint cuts
the record of a change that is not applied yet, and no change is applied after
one that was logged later and clashes with it, then once all calls have returned
a new store on the directory has the edges of the live one.
-/
import Mathlib.Logic.Function.Basic
import Amind.Graph.Wal
import Amind.Lib.Run

namespace Amind
namespace Graph

open Journal GraphStore
open Run (run Along)
open Amind.Vector (FloatBits)

inductive Call (F : Type)
  | change (c : Change F)
  | checkpoint (u : Unspecified)

/-- How far a call has come. -/
inductive Stage
  | called
  | logged
  | gathered (edges : List EdgeData)
  | returned
  deriving DecidableEq, Repr

/-- The store, its directory, who holds the lock of the store, and how far each
call is. `order` is no state of the program: the calls whose records are in the
log since it was last cut, first one first. -/
structure System (F : Type) where
  store : GraphStore F
  dir : Dir
  lock : Option ℕ
  stages : ℕ → Stage
  order : List ℕ

namespace System

variable {F : Type} (bits : FloatBits F) (calls : List (Call F))

/-- A store opened on the directory, before any call. -/
def start (d : Dir) : System F := ⟨recover bits d, d, none, fun _ => .called, []⟩

variable (s : System F)

/-- The record of call `i` is written to the log. -/
def log (i : ℕ) (c : Change F) : System F :=
  { s with
    dir := s.dir.append (c.record bits).encode
    stages := Function.update s.stages i .logged
    order := s.order ++ [i] }

/-- Call `i` is applied to the store. -/
def apply (i : ℕ) (c : Change F) : System F :=
  { s with store := c.applyTo s.store, stages := Function.update s.stages i .returned }

/-- Checkpoint `i` takes the lock and gathers the edges. -/
def gather (i : ℕ) (u : Unspecified) : System F :=
  { s with lock := some i, stages := Function.update s.stages i (.gathered (s.store.gather bits u)) }

/-- Checkpoint `i` writes the edges, cuts the log and gives the lock back. -/
def cut (i : ℕ) (u : Unspecified) (edges : List EdgeData) : System F :=
  { s with
    dir := s.dir.checkpoint (snapshotBytes u.padding edges)
    lock := none
    stages := Function.update s.stages i .returned
    order := [] }

/-- The next step of call `i`; it waits if the store is locked. -/
def step (s : System F) (i : ℕ) : System F :=
  match calls[i]?, s.stages i with
  | some (.change c), .called => s.log bits i c
  | some (.change c), .logged => if s.lock = none then s.apply i c else s
  | some (.checkpoint u), .called => if s.lock = none then s.gather bits i u else s
  | some (.checkpoint u), .gathered edges => s.cut i u edges
  | _, _ => s

/-- All calls have returned. -/
def Quiet : Prop := ∀ i < calls.length, s.stages i = .returned

end System

/-- Two changes that cannot be exchanged: they write one edge differently. -/
def Change.Clash {F : Type} : Change F → Change F → Prop
  | .addEdge src dst type weight now, .addEdge src' dst' type' weight' now' =>
    type = type' ∧ (src = src' ∧ dst = dst' ∨ type.undirected = true ∧ src = dst' ∧ dst = src') ∧
      ¬ (weight = weight' ∧ now = now')
  | .addEdge src dst _ _ _, .removeNode id => src = id ∨ dst = id
  | .removeNode id, .addEdge src dst _ _ _ => src = id ∨ dst = id
  | .removeNode _, .removeNode _ => False

/-- The change that call `i` makes clashes with the one that call `j` makes. -/
def Clashes {F : Type} (calls : List (Call F)) (i j : ℕ) : Prop :=
  match calls[i]?, calls[j]? with
  | some (.change c), some (.change c') => c.Clash c'
  | _, _ => False

/-- The step of call `i` keeps the order of the log: it applies no change after
one that was logged later and clashes with it, it cuts no record of a change that
is not applied yet, and the edges it writes are fewer than a counter of 64 bits
can count. -/
def System.InOrder {F : Type} (calls : List (Call F)) (s : System F) (i : ℕ) : Prop :=
  match s.stages i with
  | .logged => s.lock = none → ∀ j ∈ s.order.dropWhile (· ≠ i), s.stages j = .returned → ¬ Clashes calls i j
  | .gathered edges => edges.length < 2 ^ 64 ∧ ∀ j ∈ s.order, s.stages j = .returned
  | _ => True

instance Change.decidableClash {F : Type} [DecidableEq F] : ∀ c c' : Change F, Decidable (c.Clash c')
  | .addEdge .., .addEdge .. => inferInstanceAs (Decidable (_ ∧ _ ∧ _))
  | .addEdge .., .removeNode _ => inferInstanceAs (Decidable (_ ∨ _))
  | .removeNode _, .addEdge .. => inferInstanceAs (Decidable (_ ∨ _))
  | .removeNode _, .removeNode _ => inferInstanceAs (Decidable False)

instance {F : Type} [DecidableEq F] (calls : List (Call F)) (i j : ℕ) : Decidable (Clashes calls i j) := by
  unfold Clashes
  split <;> infer_instance

instance {F : Type} [DecidableEq F] (calls : List (Call F)) (s : System F) (i : ℕ) : Decidable (s.InOrder calls i) := by
  unfold System.InOrder
  split <;> infer_instance

instance {F : Type} (calls : List (Call F)) (s : System F) : Decidable (s.Quiet calls) :=
  inferInstanceAs (Decidable (∀ i < calls.length, s.stages i = .returned))

/-! ### Changes that may be exchanged -/

section Exchange

variable {F : Type} {bits : FloatBits F}

theorem addPatch_eq_some {src dst : UInt64} {type : EdgeType} {weight : F} {now : UInt32} {k : EdgeKey}
    {v : Option (F × UInt32)} (h : addPatch src dst type weight now k = some v) :
    (k = ⟨src, dst, type⟩ ∨ type.undirected = true ∧ k = ⟨dst, src, type⟩) ∧ v = some (weight, now) := by
  unfold addPatch at h
  split at h
  · rename_i hk
    exact ⟨hk, (Option.some.inj h).symm⟩
  · cases h

theorem dropPatch_eq_some {id : UInt64} {k : EdgeKey} {v : Option (F × UInt32)} (h : dropPatch F id k = some v) :
    (k.fromId = id ∨ k.toId = id) ∧ v = none := by
  unfold dropPatch at h
  split at h
  · rename_i hk
    exact ⟨hk, (Option.some.inj h).symm⟩
  · cases h

theorem recordPatch_addEdge (src dst : UInt64) (type : EdgeType) (weight : F) (now : UInt32) :
    recordPatch bits (Change.record bits (.addEdge src dst type weight now)) = addPatch src dst type weight now := by
  simp [recordPatch, Change.record, bits.ofBits_toBits]

/-- The ends of an edge that both an added edge and the removal of a node write. -/
theorem touches_of_patches {src dst id : UInt64} {type : EdgeType} {weight : F} {now : UInt32} {k : EdgeKey}
    {v w : Option (F × UInt32)} (hv : addPatch src dst type weight now k = some v)
    (hw : dropPatch F id k = some w) : src = id ∨ dst = id := by
  obtain ⟨hk, -⟩ := addPatch_eq_some hv
  obtain ⟨hid, -⟩ := dropPatch_eq_some hw
  rcases hk with rfl | ⟨-, rfl⟩
  · exact hid
  · exact hid.symm

theorem Change.independent {c c' : Change F} (h : ¬ c.Clash c') :
    Patch.Independent (recordPatch bits (c.record bits)) (recordPatch bits (c'.record bits)) := by
  intro k v w hv hw
  cases c with
  | addEdge src dst type weight now =>
    rw [recordPatch_addEdge] at hv
    cases c' with
    | addEdge src' dst' type' weight' now' =>
      rw [recordPatch_addEdge] at hw
      obtain ⟨hk, rfl⟩ := addPatch_eq_some hv
      obtain ⟨hk', rfl⟩ := addPatch_eq_some hw
      by_contra hne
      refine h ⟨?_, ?_, fun heq => hne (by rw [heq.1, heq.2])⟩
      · rcases hk with rfl | ⟨-, rfl⟩ <;> rcases hk' with hk' | ⟨-, hk'⟩ <;> exact congrArg EdgeKey.type hk'
      · rcases hk with rfl | ⟨hu, rfl⟩ <;> rcases hk' with hk' | ⟨hu', hk'⟩ <;>
          obtain ⟨h1, h2, h3⟩ := EdgeKey.mk.inj hk'
        · exact Or.inl ⟨h1, h2⟩
        · exact Or.inr ⟨h3 ▸ hu', h1, h2⟩
        · exact Or.inr ⟨hu, h2, h1⟩
        · exact Or.inl ⟨h2, h1⟩
    | removeNode id => exact absurd (touches_of_patches hv hw) h
  | removeNode id =>
    cases c' with
    | addEdge src dst type weight now =>
      rw [recordPatch_addEdge] at hw
      exact absurd (touches_of_patches hw hv) h
    | removeNode id' =>
      obtain ⟨-, rfl⟩ := dropPatch_eq_some (F := F) hv
      obtain ⟨-, rfl⟩ := dropPatch_eq_some (F := F) hw
      rfl

end Exchange

/-! ### The invariant -/

namespace System

variable {F : Type} (bits : FloatBits F) (calls : List (Call F)) (s : System F)

/-- The record of a call that changes the edges. -/
def recordOf (i : ℕ) : Option WalRecord :=
  match calls[i]? with
  | some (.change c) => some (c.record bits)
  | _ => none

/-- The records of the calls, in the order given. -/
def records (is : List ℕ) : List WalRecord := is.filterMap (recordOf bits calls)

/-- The calls with a record in the log that are applied, in the order of the log. -/
def applied : List ℕ := s.order.filter fun i => s.stages i = .returned

/-- What holds between two steps. The records in front of those of the calls are
the ones the directory came with. -/
structure Inv : Prop where
  wellFormed : s.store.WellFormed
  nodup : s.order.Nodup
  started : ∀ i ∈ s.order, (s.stages i = .logged ∨ s.stages i = .returned) ∧ ∃ c, calls[i]? = some (.change c)
  listed : ∀ i, s.stages i = .logged → i ∈ s.order
  /-- A checkpoint under way holds the lock, and the edges it has gathered are
  those of the store. -/
  held : ∀ i edges, s.stages i = .gathered edges →
    s.lock = some i ∧ ∃ u, calls[i]? = some (.checkpoint u) ∧ edges = s.store.gather bits u
  /-- The store is what the applied records of the log make of the snapshot. -/
  replayed : ∃ old : List WalRecord,
    s.dir.wal = (old ++ records bits calls s.order).flatMap WalRecord.encode ∧
      s.store.view = Patch.applyAll ((old ++ records bits calls s.applied).map (recordPatch bits))
        ((reading bits).base s.dir.snapshot)

variable {bits calls s}

theorem records_append (is js : List ℕ) :
    records bits calls (is ++ js) = records bits calls is ++ records bits calls js :=
  List.filterMap_append ..

theorem records_singleton {i : ℕ} {c : Change F} (h : calls[i]? = some (.change c)) :
    records bits calls [i] = [c.record bits] := by
  simp [records, recordOf, h]

theorem inv_start {d : Dir} {rs : List WalRecord} (hd : d.wal = rs.flatMap WalRecord.encode) :
    (start bits d).Inv bits calls where
  wellFormed := wellFormed_recover d
  nodup := List.nodup_nil
  started := fun i hi => absurd hi List.not_mem_nil
  listed := fun i hi => by cases hi
  held := fun i edges hi => by cases hi
  replayed := by
    refine ⟨rs, by simp [start, records, hd], ?_⟩
    have hview : (recover bits d).view = (reading bits).view d := view_recover d
    rw [Reading.view] at hview
    show (recover bits d).view = _
    rw [hview]
    show Patch.applyAll ((replay d.wal).map (recordPatch bits)) _ = _
    rw [hd, replay_encode]
    simp [start, applied, records]

/-- A call that is not applied yet does not count. -/
theorem applied_update {i : ℕ} {stage : Stage} (h : s.stages i ≠ .returned) (hs : stage ≠ .returned) (is : List ℕ) :
    is.filter (fun j => Function.update s.stages i stage j = .returned) = is.filter fun j => s.stages j =
      .returned := by
  refine List.filter_congr fun j _ => ?_
  by_cases hj : j = i
  · subst hj
    simp [h, hs]
  · simp [Function.update_of_ne hj]

theorem Inv.log (h : s.Inv bits calls) {i : ℕ} {c : Change F} (hc : calls[i]? = some (.change c))
    (hi : s.stages i = .called) : (s.log bits i c).Inv bits calls := by
  have hnew : i ∉ s.order := by
    intro hmem
    rcases (h.started i hmem).1 with hs | hs <;> rw [hi] at hs <;> cases hs
  obtain ⟨old, hwal, hview⟩ := h.replayed
  refine ⟨h.wellFormed, ?_, fun j hj => ?_, fun j hj => ?_, fun j edges hj => ?_, old, ?_, ?_⟩
  · exact List.nodup_append.mpr ⟨h.nodup, List.nodup_singleton i, fun a ha b hb heq => by
      rw [List.mem_singleton] at hb
      exact hnew (hb ▸ heq ▸ ha)⟩
  · by_cases heq : j = i
    · subst heq
      exact ⟨Or.inl (Function.update_self ..), c, hc⟩
    · have hmem : j ∈ s.order := (List.mem_append.mp hj).resolve_right fun h => heq (List.mem_singleton.mp h)
      simpa [System.log, Function.update_of_ne heq] using h.started j hmem
  · by_cases heq : j = i
    · exact List.mem_append_right _ (List.mem_singleton.mpr heq)
    · refine List.mem_append_left _ (h.listed j ?_)
      simpa [System.log, Function.update_of_ne heq] using hj
  · have heq : j ≠ i := by
      rintro rfl
      simp [System.log] at hj
    exact h.held j edges (by simpa [System.log, Function.update_of_ne heq] using hj)
  · show s.dir.wal ++ (c.record bits).encode = (old ++ records bits calls (s.order ++ [i])).flatMap WalRecord.encode
    rw [hwal, records_append, records_singleton hc]
    simp
  · have happ : (s.log bits i c).applied = s.applied := by
      show (s.order ++ [i]).filter _ = _
      rw [System.log]
      dsimp only
      rw [applied_update (by rw [hi]; decide) (by decide), List.filter_append, List.filter_singleton, hi]
      simp [applied]
    rw [happ]
    exact hview

/-- A call whose record is in the log, before and behind it. -/
theorem applied_apply {i : ℕ} {pre post : List ℕ} {c : Change F} (ho : s.order = pre ++ i :: post) (hn : s.order.Nodup)
    (hi : s.stages i ≠ .returned) :
    s.applied = pre.filter (fun j => s.stages j = .returned) ++ post.filter (fun j => s.stages j = .returned) ∧
      (s.apply i c).applied =
        pre.filter (fun j => s.stages j = .returned) ++ i :: post.filter (fun j => s.stages j = .returned) := by
  have hsame : ∀ {is : List ℕ}, i ∉ is →
      is.filter (fun j => Function.update s.stages i .returned j = .returned) =
        is.filter fun j => s.stages j = .returned := by
    intro is hno
    refine List.filter_congr fun j hj => ?_
    have hne : j ≠ i := fun heq => hno (heq ▸ hj)
    rw [Function.update_of_ne hne]
  rw [ho, List.nodup_append, List.nodup_cons] at hn
  have hpre : i ∉ pre := fun h => hn.2.2 i h i List.mem_cons_self rfl
  unfold applied System.apply
  dsimp only
  rw [ho, List.filter_append, List.filter_append, List.filter_cons_of_neg (by simpa using hi),
    List.filter_cons_of_pos (by simp), hsame hpre, hsame hn.2.1.1]
  exact ⟨rfl, rfl⟩

theorem Inv.apply (h : s.Inv bits calls) {i : ℕ} {c : Change F} (hc : calls[i]? = some (.change c))
    (hi : s.stages i = .logged) (hlock : s.lock = none)
    (hord : ∀ j ∈ s.order.dropWhile (· ≠ i), s.stages j = .returned → ¬ Clashes calls i j) :
    (s.apply i c).Inv bits calls := by
  have hret : s.stages i ≠ .returned := by rw [hi]; decide
  obtain ⟨pre, post, ho, hpre⟩ := List.eq_append_cons_of_mem (h.listed i hi)
  obtain ⟨hold, hnew⟩ := applied_apply (c := c) ho h.nodup hret
  have hfree : ∀ j edges, s.stages j ≠ .gathered edges := by
    intro j edges hj
    have := (h.held j edges hj).1
    rw [hlock] at this
    cases this
  have hstage : ∀ {j}, j ≠ i → (s.apply i c).stages j = s.stages j := fun hj => Function.update_of_ne hj _ _
  have hself : (s.apply i c).stages i = .returned := Function.update_self ..
  obtain ⟨old, hwal, hview⟩ := h.replayed
  refine ⟨?_, h.nodup, fun j hj => ?_, fun j hj => ?_, fun j edges hj => ?_, old, hwal, ?_⟩
  · show (c.applyTo s.store).WellFormed
    have heq : c.applyTo s.store = s.store.replayRecord bits (c.record bits) := applyTo_eq c
    rw [heq]
    exact h.wellFormed.replayRecord _
  · by_cases heq : j = i
    · subst heq
      exact ⟨Or.inr hself, c, hc⟩
    · rw [hstage heq]
      exact h.started j hj
  · have heq : j ≠ i := by
      rintro rfl
      rw [hself] at hj
      cases hj
    exact h.listed j (hstage heq ▸ hj)
  · exfalso
    by_cases heq : j = i
    · rw [heq, hself] at hj
      cases hj
    · exact hfree j edges (hstage heq ▸ hj)
  · -- the record moves in front of the later ones that are applied
    have hind : ∀ q ∈ (records bits calls (post.filter fun j => s.stages j = .returned)).map (recordPatch bits),
        Patch.Independent (recordPatch bits (c.record bits)) q := by
      intro q hq
      obtain ⟨r, hr, rfl⟩ := List.mem_map.mp hq
      obtain ⟨j, hj, hrec⟩ := List.mem_filterMap.mp hr
      obtain ⟨hpost, hdone⟩ := List.mem_filter.mp hj
      have hpos : ∀ a ∈ pre, decide (a ≠ i) = true := fun a ha => decide_eq_true fun heq => hpre (heq ▸ ha)
      have hdrop : j ∈ s.order.dropWhile (· ≠ i) := by
        rw [ho, List.dropWhile_append_of_pos hpos, List.dropWhile_cons_of_neg (by simp)]
        exact List.mem_cons_of_mem _ hpost
      have hmem : j ∈ s.order := ho ▸ List.mem_append_right _ (List.mem_cons_of_mem _ hpost)
      obtain ⟨c', hc'⟩ := (h.started j hmem).2
      have hr' : c'.record bits = r := by simpa [recordOf, hc'] using hrec
      rw [← hr']
      exact Change.independent fun hclash =>
        hord j hdrop (by simpa using hdone) (by simpa [Clashes, hc, hc'] using hclash)
    show (c.applyTo s.store).view = _
    rw [applyTo_eq, view_replayRecord h.wellFormed, hview, hold, hnew]
    have hcons : records bits calls (i :: post.filter fun j => s.stages j = .returned) =
        c.record bits :: records bits calls (post.filter fun j => s.stages j = .returned) := by
      rw [← List.singleton_append, records_append, records_singleton hc]
      rfl
    rw [records_append, records_append, hcons]
    simp only [List.map_append, List.map_cons, Patch.applyAll_append, Patch.applyAll_cons]
    exact (Patch.applyAll_insert hind _).symm

theorem Inv.gather (h : s.Inv bits calls) {i : ℕ} {u : Unspecified} (hc : calls[i]? = some (.checkpoint u))
    (hi : s.stages i = .called) (hlock : s.lock = none) : (s.gather bits i u).Inv bits calls := by
  have hstage : ∀ {j}, j ≠ i → (s.gather bits i u).stages j = s.stages j := fun hj => Function.update_of_ne hj _ _
  have hself : (s.gather bits i u).stages i = .gathered (s.store.gather bits u) := Function.update_self ..
  obtain ⟨old, hwal, hview⟩ := h.replayed
  refine ⟨h.wellFormed, h.nodup, fun j hj => ?_, fun j hj => ?_, fun j edges hj => ?_, old, hwal, ?_⟩
  · have hne : j ≠ i := by
      rintro rfl
      obtain ⟨c, hc'⟩ := (h.started j hj).2
      rw [hc] at hc'
      cases hc'
    rw [hstage hne]
    exact h.started j hj
  · have hne : j ≠ i := by
      rintro rfl
      rw [hself] at hj
      cases hj
    exact h.listed j (hstage hne ▸ hj)
  · by_cases heq : j = i
    · subst heq
      rw [hself] at hj
      exact ⟨rfl, u, hc, (Stage.gathered.inj hj).symm⟩
    · rw [hstage heq] at hj
      have := (h.held j edges hj).1
      rw [hlock] at this
      cases this
  · have happ : (s.gather bits i u).applied = s.applied :=
      applied_update (by rw [hi]; decide) (fun h => by cases h) s.order
    rw [happ]
    exact hview

/-- With no change between its two steps, the store is what the directory is read
as. -/
theorem Inv.view_eq (h : s.Inv bits calls) (hall : ∀ j ∈ s.order, s.stages j = .returned) :
    s.store.view = (reading bits).view s.dir := by
  obtain ⟨old, hwal, hview⟩ := h.replayed
  have happ : s.applied = s.order := List.filter_eq_self.mpr fun j hj => decide_eq_true (hall j hj)
  rw [hview, happ, Reading.view]
  show _ = Patch.applyAll ((replay s.dir.wal).map (recordPatch bits)) _
  rw [hwal, replay_encode]

theorem Inv.cut (h : s.Inv bits calls) {i : ℕ} {u : Unspecified} {edges : List EdgeData}
    (hc : calls[i]? = some (.checkpoint u)) (hi : s.stages i = .gathered edges) (hlen : edges.length < 2 ^ 64)
    (hall : ∀ j ∈ s.order, s.stages j = .returned) : (s.cut i u edges).Inv bits calls := by
  have hstage : ∀ {j}, j ≠ i → (s.cut i u edges).stages j = s.stages j := fun hj => Function.update_of_ne hj _ _
  have hself : (s.cut i u edges).stages i = .returned := Function.update_self ..
  obtain ⟨hlock, u', hc', rfl⟩ := h.held i edges hi
  obtain rfl : u = u' := by
    rw [hc] at hc'
    exact Call.checkpoint.inj (Option.some.inj hc')
  refine ⟨h.wellFormed, List.nodup_nil, fun j hj => absurd hj List.not_mem_nil, fun j hj => ?_,
    fun j es hj => ?_, [], ?_, ?_⟩
  · exfalso
    by_cases heq : j = i
    · rw [heq, hself] at hj
      cases hj
    · rw [hstage heq] at hj
      have := hall j (h.listed j hj)
      rw [hj] at this
      cases this
  · exfalso
    by_cases heq : j = i
    · rw [heq, hself] at hj
      cases hj
    · rw [hstage heq] at hj
      have := (h.held j es hj).1
      rw [hlock] at this
      exact heq (Option.some.inj this).symm
  · show (s.dir.checkpoint _).wal = _
    rw [Dir.checkpoint_eq]
    rfl
  · show s.store.view = Patch.applyAll _ ((reading bits).base (s.dir.checkpoint _).snapshot)
    rw [Dir.checkpoint_eq, base_snapshotBytes u h.wellFormed hlen]
    rfl

/-- Every step in order keeps the invariant. -/
theorem Inv.step (h : s.Inv bits calls) {i : ℕ} (hin : s.InOrder calls i) : (s.step bits calls i).Inv bits calls := by
  unfold System.step
  split
  · rename_i c hc hi
    exact h.log hc hi
  · rename_i c hc hi
    split
    · rename_i hlock
      unfold InOrder at hin
      rw [hi] at hin
      exact h.apply hc hi hlock (hin hlock)
    · exact h
  · rename_i u hc hi
    split
    · rename_i hlock
      exact h.gather hc hi hlock
    · exact h
  · rename_i u edges hc hi
    unfold InOrder at hin
    rw [hi] at hin
    exact h.cut hc hi hin.1 hin.2
  · exact h

/-- **Once all calls have returned, a new store on the directory has the edges of
the live one, if every step was in order.** The log the store was opened on has
no torn record. -/
theorem recover_run {d : Dir} {rs : List WalRecord} (hd : d.wal = rs.flatMap WalRecord.encode) {schedule : List ℕ}
    (hin : Along (step bits calls) (InOrder calls) (start bits d) schedule)
    (hquiet : (run (step bits calls) (start bits d) schedule).Quiet calls) :
    SameEdges (recover bits (run (step bits calls) (start bits d) schedule).dir)
      (run (step bits calls) (start bits d) schedule).store := by
  have hinv : (run (step bits calls) (start bits d) schedule).Inv bits calls :=
    Run.run_inv (step bits calls) (I := fun _ s => s.Inv bits calls) (fun _ _ _ h hi => h.step hi) schedule [] _
      (inv_start hd) hin
  have hall : ∀ j ∈ (run (step bits calls) (start bits d) schedule).order,
      (run (step bits calls) (start bits d) schedule).stages j = .returned := by
    intro j hj
    obtain ⟨c, hc⟩ := (hinv.started j hj).2
    exact hquiet j (List.getElem?_eq_some_iff.mp hc).1
  rw [sameEdges_iff (wellFormed_recover _).toIndexed hinv.wellFormed.toIndexed, view_recover, hinv.view_eq hall]

/-- Nodes in the order of the table, no bytes between the fields. -/
def plain : Unspecified := ⟨fun l => l, fun _ => .refl _, fun _ => (0, 0)⟩

open Amind.Vector.ColdStore (rawBits)

/-- Two edges, the removal of a node and a checkpoint at once. -/
def fourCalls : List (Call UInt32) :=
  [.change (.addEdge 1 2 .related 7 10), .checkpoint plain, .change (.removeNode 3),
    .change (.addEdge 2 3 .caused 8 11)]

-- all three records are in the log before the first is applied, and applied when the checkpoint begins
theorem recover_run_four :
    SameEdges (recover rawBits (run (step rawBits fourCalls) (start rawBits {}) [0, 3, 2, 3, 0, 2, 1, 1]).dir)
      (run (step rawBits fourCalls) (start rawBits {}) [0, 3, 2, 3, 0, 2, 1, 1]).store :=
  recover_run (show Dir.wal {} = [].flatMap WalRecord.encode from rfl) (by decide) (by decide)

/-- An edge is added while a checkpoint is made. -/
def twoCalls : List (Call UInt32) := [.change (.addEdge 1 2 .caused 7 10), .checkpoint plain]

-- the checkpoint gathers and cuts between the record and the edge
theorem edge_lost :
    (run (step rawBits twoCalls) (start rawBits {}) [0, 1, 1, 0]).Quiet twoCalls ∧
      ¬ SameEdges (recover rawBits (run (step rawBits twoCalls) (start rawBits {}) [0, 1, 1, 0]).dir)
        (run (step rawBits twoCalls) (start rawBits {}) [0, 1, 1, 0]).store :=
  ⟨by decide, fun h => absurd (h 1).length_eq (by decide)⟩

end System

end Graph
end Amind
