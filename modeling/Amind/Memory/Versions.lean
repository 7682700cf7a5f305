/-
# Version chains

Updating a record marks it and stores a new version of it under an id that is
drawn. `update` looks neither at the phase of the record nor at whether it was
updated before, and storing a record overwrites what is under its id.

`linear_iff` says which runs have a linear history, that is, no record is
updated twice, no chain of versions has two active records, and updates of
records that are not active are refused: those that update only active records
that were not updated before, and put an active record only where its chain has
no other. The storage engine keeps its answers between the calls.
-/
import Amind.Lib.Chains
import Amind.Lib.Run
import Amind.Memory.Writes

namespace Amind
namespace Core

/-- The id that was drawn. -/
def NextId.id : NextId → Option UInt64
  | .returned id _ => some id
  | _ => none

end Core

namespace Memory

open Amind.Core
open Run (run Along Paused pausing Still OnOps)
open Chains (Chain Alone Linear)

/-- A store, and what was updated to what so far. -/
structure History (F : Type) where
  store : MemoryStore F
  replaced : List (UInt64 × UInt64)

namespace MemoryStore

variable {F : Type} (s : MemoryStore F)

/-- The record is there, and is active. -/
def Active (id : UInt64) : Prop := ∃ r, s.load id = some r ∧ r.phase = .active

/-- The id under which a record is stored: its own, or one that is drawn. -/
def storedUnder (r : MemoryRecord F) (clock : List ℤ) : Option UInt64 :=
  if r.memoryId = 0 then (s.idGen.nextId clock).id else some r.memoryId

end MemoryStore

namespace History

variable {F : Type} [Floats F]

def start (c : Config F) : History F := ⟨.new c, []⟩

/-- The storage engine has come to answer so. -/
def settle (x : History F) (answers : Answers F) : History F := { x with store := x.store.settle answers }

omit [Floats F] in
theorem settle_lsm (x : History F) : x.settle x.store.lsm = x := rfl

def step (x : History F) (op : Op F) : History F where
  store := x.store.exec op
  replaced :=
    match op with
    | .update id _ _ _ _ => ((x.store.created op).map fun newId => (id, newId)).toList ++ x.replaced
    | _ => x.replaced

/-- Updating a record that is not active fails and changes no record. -/
def Refuses (x : History F) : Op F → Prop
  | .update id c v clock now => ∀ r, x.store.load id = some r → r.phase ≠ .active →
    (x.store.update id c v clock now).2.id = none ∧ (x.store.update id c v clock now).1.load = x.store.load
  | _ => True

/-- The call continues a linear history. -/
def Continues (x : History F) : Op F → Prop
  | .fastStore r clock _ => r.phase = .active →
    ∀ i ∈ x.store.storedUnder r clock, Alone x.replaced x.store.Active i
  | .update id _ _ clock _ => (x.store.load id).isSome = true → ∀ newId ∈ (x.store.idGen.nextId clock).id,
    x.store.Active id ∧ id ∉ x.replaced.map Prod.fst ∧
      ∀ j, Chain x.replaced newId j → j ≠ id → j ≠ newId → ¬ x.store.Active j
  | _ => True

end History

/-! ### What a call makes active -/

namespace MemoryStore

variable {F : Type} {s : MemoryStore F} {id : UInt64}

theorem active_iff : s.Active id ↔ ∃ v, s.shown id = some v ∧ v.phase = .active := by
  constructor
  · rintro ⟨r, hr, ha⟩
    exact ⟨version s.config.wire r, by rw [shown, hr]; rfl, ha⟩
  · rintro ⟨v, hv, ha⟩
    obtain ⟨r, hr, rfl⟩ := Option.map_eq_some_iff.mp hv
    exact ⟨r, hr, ha⟩

theorem phase_prepared (r : MemoryRecord F) (now : UInt32) : (prepared r now).phase = r.phase := by
  unfold prepared
  dsimp only
  split <;> split <;> rfl

theorem phase_newVersion (r : MemoryRecord F) (newId : UInt64) (c : Text) (v : List F) (now : UInt32) :
    (newVersion r newId c v now).phase = .active := by
  unfold newVersion
  dsimp only
  split <;> rfl

theorem id_fastStore (r : MemoryRecord F) (clock : List ℤ) (now : UInt32) :
    (s.fastStore r clock now).2.id = s.storedUnder r clock := by
  unfold fastStore storedUnder
  by_cases h₀ : r.memoryId = 0
  · rw [if_pos h₀, if_pos h₀]
    cases s.idGen.nextId clock <;> rfl
  · rw [if_neg h₀, if_neg h₀]
    rfl

theorem id_update {old : MemoryRecord F} (hl : s.load id = some old) (c : Text) (v : List F) (clock : List ℤ)
    (now : UInt32) : (s.update id c v clock now).2.id = (s.idGen.nextId clock).id := by
  unfold update
  rw [hl]
  cases s.idGen.nextId clock <;> rfl

theorem id_update_missing (hl : s.load id = none) (c : Text) (v : List F) (clock : List ℤ) (now : UInt32) :
    (s.update id c v clock now).2.id = none := by
  unfold update
  rw [hl]
  rfl

/-- An update that stores nothing changes nothing. -/
theorem update_none {c : Text} {v : List F} {clock : List ℤ} {now : UInt32}
    (h : (s.update id c v clock now).2.id = none) : (s.update id c v clock now).1 = s := by
  revert h
  unfold update
  cases s.load id with
  | none => exact fun _ => rfl
  | some old =>
    cases s.idGen.nextId clock with
    | returned newId g =>
      intro h
      have h' : some newId = none := h
      cases h'
    | thrown => exact fun _ => rfl
    | waiting => exact fun _ => rfl

variable [Floats F]

theorem active_exec (hs : s.Coherent) {op : Op F} {ws : List (UInt64 × MemoryRecord F)} (hw : s.wrote op = ws) :
    (s.exec op).Active id ↔ ∃ v, after s.config.wire s.shown ws id = some v ∧ v.phase = .active := by
  rw [active_iff, hs.shown_exec op, hw]

/-- Storing a record changes whether its id is active, and no other. -/
theorem active_fastStore (hs : s.Coherent) {r : MemoryRecord F} {clock : List ℤ} {now : UInt32} {i : UInt64}
    (hi : s.storedUnder r clock = some i) : (s.exec (.fastStore r clock now)).Active id ↔
      id = i ∧ r.phase = .active ∨ id ≠ i ∧ s.Active id := by
  have hw : s.wrote (.fastStore r clock now) = [(i, prepared { r with memoryId := i } now)] := by
    rw [wrote, id_fastStore, hi]
    rfl
  rw [active_exec hs hw, after_one]
  by_cases he : id = i
  · rw [if_pos he]
    have hphase : (version s.config.wire (prepared { r with memoryId := i } now)).phase = r.phase :=
      phase_prepared { r with memoryId := i } now
    simp [he, hphase]
  · rw [if_neg he, active_iff]
    simp [he]

/-- After an update the new version is active and the old one is not. -/
theorem active_update (hs : s.Coherent) {old : MemoryRecord F} {i newId : UInt64} {c : Text} {v : List F}
    {clock : List ℤ} {now : UInt32} (hl : s.load i = some old) (hid : (s.idGen.nextId clock).id = some newId) :
    (s.exec (.update i c v clock now)).Active id ↔ id = newId ∨ id ≠ i ∧ s.Active id := by
  have hw : s.wrote (.update i c v clock now) =
      [(i, old.markVersioned), (newId, newVersion old newId c v now)] := by
    rw [wrote, hl, id_update hl, hid]
    rfl
  rw [active_exec hs hw, after_two]
  by_cases hnew : id = newId
  · rw [if_pos hnew]
    have hphase : (version s.config.wire (newVersion old newId c v now)).phase = .active :=
      phase_newVersion old newId c v now
    simp [hnew, hphase]
  · rw [if_neg hnew]
    by_cases hi : id = i
    · rw [if_pos hi]
      have hphase : (version s.config.wire old.markVersioned).phase = .versioned := rfl
      have hne : i ≠ newId := fun he => hnew (hi.trans he)
      simp [hi, hphase, hne]
    · rw [if_neg hi, active_iff]
      simp [hnew, hi]

/-- No other call makes a record active. -/
theorem active_of_exec (hs : s.Coherent) {op : Op F} (hc : s.created op = none) (h : (s.exec op).Active id) :
    s.Active id := by
  rw [active_exec hs rfl] at h
  obtain ⟨v, hv, ha⟩ := h
  rcases after_cases s.config.wire (s.wrote op) s.shown id with ⟨r, hr, he⟩ | ⟨-, he⟩
  · have hphase : r.phase = .active := by
      have hv' : version s.config.wire r = v := Option.some.inj (he.symm.trans hv)
      exact (congrArg (fun r => r.phase) hv').trans ha
    have hnone : s.created op ≠ some id := by
      rw [hc]
      nofun
    cases wrote_inv hr with
    | stored r' clock now hid => exact absurd hid hnone
    | replacing h₀ hnew => exact absurd hnew hnone
    | versioned c v clock now h₀ => cases hphase
    | removed h₀ => cases hphase
    | archived h₀ => cases hphase
    | embedded v h₀ => exact ⟨_, h₀, hphase⟩
    | boosted delta h₀ => exact ⟨_, h₀, hphase⟩
    | rewritten c h₀ => exact ⟨_, h₀, hphase⟩
  · exact active_iff.mpr ⟨v, he.symm.trans hv, ha⟩

end MemoryStore

/-! ### Runs -/

namespace History

variable {F : Type} [Floats F] {x : History F} {op : Op F}

/-- A call that stores nothing new keeps a linear history. -/
theorem linear_of_exec (hs : x.store.Coherent) (h : Linear x.replaced x.store.Active)
    (hc : x.store.created op = none) : Linear (x.step op).replaced (x.step op).store.Active := by
  have hreplaced : (x.step op).replaced = x.replaced := by
    unfold step
    cases op with
    | update id c v clock now =>
      show ((x.store.created _).map _).toList ++ x.replaced = _
      rw [hc]
      rfl
    | _ => rfl
  rw [hreplaced]
  exact h.mono fun id ha => MemoryStore.active_of_exec hs hc ha

/-- Storing a record keeps a linear history exactly if it is not active or
alone in its chain. -/
theorem linear_fastStore_iff (hs : x.store.Coherent) (h : Linear x.replaced x.store.Active) (r : MemoryRecord F)
    (clock : List ℤ) (now : UInt32) :
    Linear (x.step (.fastStore r clock now)).replaced (x.step (.fastStore r clock now)).store.Active ↔
      x.Continues (.fastStore r clock now) := by
  cases hi : x.store.storedUnder r clock with
  | none =>
    have hc : x.store.created (.fastStore r clock now) = none := (MemoryStore.id_fastStore r clock now).trans hi
    refine iff_of_true (linear_of_exec hs h hc) fun _ i hi' => ?_
    rw [hi] at hi'
    cases hi'
  | some i =>
    have hactive : ∀ id, (x.store.exec (.fastStore r clock now)).Active id ↔
        id = i ∧ r.phase = .active ∨ id ≠ i ∧ x.store.Active id := fun _ => MemoryStore.active_fastStore hs hi
    by_cases hphase : r.phase = .active
    · -- what is active apart from `i` stays so, and `i` is
      have hlinear : Linear x.replaced fun id => id ≠ i ∧ x.store.Active id := h.mono fun _ ha => ha.2
      have hput : ∀ id, (x.step (.fastStore r clock now)).store.Active id ↔
          id = i ∨ id ≠ i ∧ x.store.Active id := fun id => (hactive id).trans (by simp [hphase])
      refine (Chains.linear_put_iff hlinear hput).trans ?_
      constructor
      · intro halone _ i' hi'
        rw [hi] at hi'
        cases hi'
        exact fun j hj hne ha => halone j hj hne ⟨hne, ha⟩
      · intro hc j hj hne ha
        exact hc hphase i hi j hj hne ha.2
    · refine iff_of_true (h.mono fun id ha => ?_) fun ha => absurd ha hphase
      rcases (hactive id).mp ha with ⟨-, ha⟩ | ⟨-, ha⟩
      · exact absurd ha hphase
      · exact ha

omit [Floats F] in
theorem refuses_of_continues (h : x.Continues op) : x.Refuses op := by
  cases op with
  | update id c v clock now =>
    intro r hl hphase
    have hnone : (x.store.update id c v clock now).2.id = none := by
      rw [MemoryStore.id_update hl, Option.eq_none_iff_forall_not_mem]
      intro newId hid
      obtain ⟨⟨r', hr', ha⟩, -⟩ := h (Option.isSome_of_eq_some hl) newId hid
      rw [hl] at hr'
      exact hphase (Option.some.inj hr' ▸ ha)
    exact ⟨hnone, by rw [MemoryStore.update_none hnone]⟩
  | _ => trivial

/-- An update that is refused for records that are not active keeps a linear
history exactly if the record was not updated before, and no other active one is
in the chain of the id that is drawn. -/
theorem linear_update_iff (hs : x.store.Coherent) (h : Linear x.replaced x.store.Active) {id : UInt64} {c : Text}
    {v : List F} {clock : List ℤ} {now : UInt32} (hr : x.Refuses (.update id c v clock now)) :
    Linear (x.step (.update id c v clock now)).replaced (x.step (.update id c v clock now)).store.Active ↔
      x.Continues (.update id c v clock now) := by
  cases hl : x.store.load id with
  | none =>
    refine iff_of_true (linear_of_exec hs h (MemoryStore.id_update_missing hl c v clock now)) fun hsome => ?_
    rw [hl] at hsome
    cases hsome
  | some old =>
    have hid := MemoryStore.id_update hl c v clock now
    cases hnew : (x.store.idGen.nextId clock).id with
    | none =>
      refine iff_of_true (linear_of_exec hs h (hid.trans hnew)) fun _ newId hn => ?_
      rw [hnew] at hn
      cases hn
    | some newId =>
      have hactive : x.store.Active id := by
        refine ⟨old, hl, ?_⟩
        by_contra hphase
        have hnone := (hr old hl hphase).1
        rw [hid, hnew] at hnone
        cases hnone
      have hreplaced : (x.step (.update id c v clock now)).replaced = (id, newId) :: x.replaced := by
        show ((x.store.update id c v clock now).2.id.map _).toList ++ x.replaced = _
        rw [hid, hnew]
        rfl
      rw [hreplaced]
      refine (Chains.linear_replace_iff h hactive fun a => MemoryStore.active_update hs hl hnew).trans ?_
      constructor
      · rintro ⟨hfirst, hfree⟩ _ newId' hn
        rw [hnew] at hn
        cases hn
        exact ⟨hactive, hfirst, hfree⟩
      · intro hc
        exact (hc (Option.isSome_of_eq_some hl) newId hnew).2

/-- The history of a run of calls is linear exactly if every call continues
it. -/
theorem linear_calls_iff (c : Config F) (ops : List (Op F)) :
    ((∀ before, before <+: ops →
        Linear (run step (start c) before).replaced (run step (start c) before).store.Active) ∧
      Along step Refuses (start c) ops) ↔ Along step Continues (start c) ops := by
  have hiff : Along step Refuses (start c) ops → ((∀ before, before <+: ops →
      Linear (run step (start c) before).replaced (run step (start c) before).store.Active) ↔
        Along step Continues (start c) ops) := by
    refine Run.along_iff_of_inv (I := fun _ (y : History F) => y.store.Coherent ∧ Linear y.replaced y.store.Active)
      (P := fun _ (y : History F) => Linear y.replaced y.store.Active) ?_ (fun _ _ hy => hy.2) ?_
      ⟨MemoryStore.coherent_new c, Chains.linear_nil⟩
    · intro _ y op hy hr hc
      refine ⟨hy.1.exec op, ?_⟩
      cases op with
      | fastStore r clock now => exact (linear_fastStore_iff hy.1 hy.2 r clock now).mpr hc
      | update id c v clock now => exact (linear_update_iff hy.1 hy.2 hr).mpr hc
      | _ => exact linear_of_exec hy.1 hy.2 rfl
    · intro _ y op hy hr hlinear
      cases op with
      | fastStore r clock now => exact (linear_fastStore_iff hy.1 hy.2 r clock now).mp hlinear
      | update id c v clock now => exact (linear_update_iff hy.1 hy.2 hr).mp hlinear
      | _ => trivial
  constructor
  · rintro ⟨hlinear, hr⟩
    exact (hiff hr).mp hlinear
  · intro hc
    have hr : Along step Refuses (start c) ops :=
      Along.of_inv (I := fun _ => True) (fun _ _ _ _ => trivial) (fun _ _ _ h => refuses_of_continues h) trivial hc
    exact ⟨(hiff hr).mpr hc, hr⟩

def hundredCached : Config ℤ := ⟨1, 3, 6, 10, 7, 100, .whole⟩

def storeOne : Op ℤ := .fastStore { MemoryRecord.zero with memoryId := 1 } [] 1

/-- The record 1 is stored and updated. -/
def updatedOnce : List (Op ℤ) := [storeOne, .update 1 [] [] [CUSTOM_EPOCH_MS + 1] 2]

/-- Tables are merged after that with no change. -/
def updatedThenMerged : List (Paused (Op ℤ) (Answers ℤ)) :=
  updatedOnce.map .op ++ [.pause (run step (start hundredCached) updatedOnce).store.lsm]

/-- The record 1 is stored and updated twice. -/
def updatedTwice : List (Op ℤ) := updatedOnce ++ [.update 1 [] [] [CUSTOM_EPOCH_MS + 2] 3]

end History

end Memory
end Amind
