/-
# Incremental consolidation

A cycle checks a list of records, each as it was when the list was made. For
each it finds the store that has it, asks for its nearest neighbours and, at
the first live one that is similar enough, removes the less important of the
two, the neighbour on a tie. Whether the checked record is itself still alive
is not asked: `contains` is true of removed records. So a record that an
earlier check removed can still remove the one it was removed for.

A cycle goes through its checks in rounds (`Lib/Rounds`, `left_run`), which are
put together from the stores as they are before it. `copies_kept` says that every
record it removed is connected, by a chain of similar pairs, to a live one, if no
record that was left out before its own round meets one below it. If one does, the
cycle removes that for a record that is not alive.
-/
import Amind.Lib.Rounds
import Amind.Memory.Enumerate
import Amind.Server.AgentStores

namespace Amind
namespace Server

open Amind.Core Amind.Memory
open Run (run Along)
open Relation (ReflTransGen)
open Rounds (Round Present leave leave_eq_false met_some)

/-- The threshold of similarity, what `searchSimilar` answers for two records,
and whether removals are only counted. -/
structure Dedup (F : Type) where
  threshold : F
  sim : UInt64 → UInt64 → F
  shadowMode : Bool

/-- A record to check and the neighbours `searchSimilar` answers, nearest
first. -/
structure Check (F : Type) where
  record : MemoryRecord F
  neighbors : List UInt64

structure Cycle (F : Type) where
  engine : Engine F
  deduped : ℕ

section Cycle

variable {F : Type} [Floats F] (p : Dedup F)

/-- The neighbour, if it is similar enough and alive. -/
def duplicate (s : MemoryStore F) (id nid : UInt64) : Option (UInt64 × MemoryRecord F) :=
  if nid = id then none
  else if p.sim id nid < p.threshold then none
  else
    match s.peek nid with
    | .ok nrec => if nrec.isAlive then some (nid, nrec) else none
    | .error _ => none

/-- The agent whose store has the record, and the neighbour it is a duplicate
of. -/
def findDuplicate (e : Engine F) (c : Check F) : Option (String × UInt64 × MemoryRecord F) :=
  (e.findStoreForMemory e.agents c.record.memoryId).bind fun a =>
    (c.neighbors.findSome? (duplicate p (e.memory a) c.record.memoryId)).map fun n => (a, n)

/-- Check one record. -/
def dedup (x : Cycle F) (c : Check F) : Cycle F :=
  match findDuplicate p x.engine c with
  | none => x
  | some (a, nid, nrec) =>
    let toArchive := if nrec.importance ≤ c.record.importance then nid else c.record.memoryId
    { engine :=
        if p.shadowMode then x.engine
        else { x.engine with
          memory := Function.update x.engine.memory a ((x.engine.memory a).remove toArchive).1 }
      deduped := x.deduped + 1 }

end Cycle

/-! ### What a cycle should keep -/

section Alive

variable {F : Type}

/-- The store shows the record alive. -/
def AliveIn (s : MemoryStore F) (id : UInt64) : Prop := ∃ r, s.peek id = .ok r ∧ r.isAlive = true

theorem aliveIn_iff {s : MemoryStore F} {id : UInt64} : AliveIn s id ↔ ∃ r, s.load id = some r ∧ r.isAlive = true := by
  unfold AliveIn MemoryStore.peek
  cases s.load id with
  | none => simp
  | some r => simp

theorem aliveIn_remove {s : MemoryStore F} {t id : UInt64} :
    AliveIn (s.remove t).1 id ↔ id ≠ t ∧ AliveIn s id := by
  rw [aliveIn_iff, aliveIn_iff]
  by_cases h : id = t
  · subst h
    rw [MemoryStore.load_remove_self]
    constructor
    · rintro ⟨r, hr, ha⟩
      obtain ⟨r₀, -, rfl⟩ := Option.map_eq_some_iff.mp hr
      rw [((MemoryRecord.tombstoned_markTombstone r₀).wire _).not_alive] at ha
      cases ha
    · exact fun h => absurd rfl h.1
  · rw [MemoryStore.load_remove_other h]
    exact ⟨fun ha => ⟨h, ha⟩, fun ha => ha.2⟩

instance (s : MemoryStore F) (id : UInt64) : Decidable (AliveIn s id) :=
  decidable_of_iff ((s.load id).any MemoryRecord.isAlive = true) <| by
    rw [aliveIn_iff]
    cases s.load id <;> simp

end Alive

section Spec

variable {F : Type} [Floats F] (p : Dedup F)

/-- A pair the cycle takes for duplicates. -/
def Similar (i j : UInt64) : Prop := ¬ p.sim i j < p.threshold

/-- Every record of `e` that is alive there and no more in `e'` is connected to
one that is. -/
def CopiesKept (e e' : Engine F) : Prop :=
  ∀ a id, AliveIn (e.memory a) id → ¬ AliveIn (e'.memory a) id →
    ∃ id', AliveIn (e'.memory a) id' ∧ ReflTransGen (Similar p) id id'

/-- A check as a round: of those alive at the start the record may meet the
neighbours it is similar to, and those not more important are below it. -/
def roundOf (e : Engine F) (c : Check F) : Round (String × UInt64) :=
  match e.findStoreForMemory e.agents c.record.memoryId with
  | none => ⟨("", c.record.memoryId), []⟩
  | some a =>
    { self := (a, c.record.memoryId)
      others :=
        if p.shadowMode then []
        else (c.neighbors.filterMap (duplicate p (e.memory a) c.record.memoryId)).map fun n =>
          ((a, n.1), decide (n.2.importance ≤ c.record.importance)) }

/-- What is not alive. -/
def goneIn (e : Engine F) (k : String × UInt64) : Bool := !decide (AliveIn (e.memory k.1) k.2)

/-- No record that was removed before its check, or was not alive to begin with,
meets a neighbour that is below it. -/
def ChecksPresent (e : Engine F) (cs : List (Check F)) : Prop :=
  Along leave Present (goneIn e) (cs.map (roundOf p e))

instance (e : Engine F) (cs : List (Check F)) : Decidable (ChecksPresent p e cs) :=
  inferInstanceAs (Decidable (Along leave Present (goneIn e) (cs.map (roundOf p e))))

end Spec

/-! ### One check -/

section Check

variable {F : Type} [Floats F] {p : Dedup F} {x : Cycle F} {c : Check F}

theorem peek_findDuplicate {a : String} {nid : UInt64} {nrec : MemoryRecord F}
    (h : findDuplicate p x.engine c = some (a, nid, nrec)) :
    nid ≠ c.record.memoryId ∧ Similar p c.record.memoryId nid ∧
      (x.engine.memory a).peek nid = .ok nrec ∧ nrec.isAlive = true := by
  obtain ⟨a', -, h⟩ := Option.bind_eq_some_iff.mp h
  obtain ⟨n, hn, he⟩ := Option.map_eq_some_iff.mp h
  cases he
  obtain ⟨nid', -, hd⟩ := List.exists_of_findSome?_eq_some hn
  unfold duplicate at hd
  split at hd
  · cases hd
  · rename_i hne
    split at hd
    · cases hd
    · rename_i hsim
      split at hd
      · rename_i r hr
        split at hd
        · rename_i halive
          cases hd
          exact ⟨hne, hsim, hr, halive⟩
        · cases hd
      · cases hd

/-- The record a check removes, and the agent. -/
def removal (p : Dedup F) (x : Cycle F) (c : Check F) : Option (String × UInt64) :=
  if p.shadowMode then none
  else (findDuplicate p x.engine c).map fun n =>
    (n.1, if n.2.2.importance ≤ c.record.importance then n.2.1 else c.record.memoryId)

/-- What is alive after a check: all but the record it removes. -/
theorem aliveIn_dedup {a : String} {id : UInt64} : AliveIn ((dedup p x c).engine.memory a) id ↔
    AliveIn (x.engine.memory a) id ∧ removal p x c ≠ some (a, id) := by
  unfold dedup removal
  cases hf : findDuplicate p x.engine c with
  | none => simp
  | some n =>
    obtain ⟨b, nid, nrec⟩ := n
    cases hs : p.shadowMode with
    | true => simp
    | false =>
      show AliveIn (Function.update x.engine.memory b ((x.engine.memory b).remove
          (if nrec.importance ≤ c.record.importance then nid else c.record.memoryId)).1 a) id ↔
        AliveIn (x.engine.memory a) id ∧
          some (b, if nrec.importance ≤ c.record.importance then nid else c.record.memoryId) ≠ some (a, id)
      generalize (if nrec.importance ≤ c.record.importance then nid else c.record.memoryId) = t
      by_cases hb : a = b
      · subst hb
        rw [Function.update_self, aliveIn_remove, and_comm]
        refine and_congr_right fun _ => not_congr ⟨fun h => by rw [h], fun h => ?_⟩
        cases h
        rfl
      · rw [Function.update_of_ne hb]
        exact ⟨fun h => ⟨h, fun he => hb (by cases he; rfl)⟩, fun h => h.1⟩

/-- A check removes the neighbour it found, or the record it was for. -/
theorem removal_some {a : String} {t : UInt64} (h : removal p x c = some (a, t)) :
    p.shadowMode = false ∧ ∃ nid nrec, findDuplicate p x.engine c = some (a, nid, nrec) ∧
      (nrec.importance ≤ c.record.importance ∧ t = nid ∨
        ¬ nrec.importance ≤ c.record.importance ∧ t = c.record.memoryId) := by
  unfold removal at h
  split at h
  · cases h
  · rename_i hs
    obtain ⟨⟨b, nid, nrec⟩, hf, he⟩ := Option.map_eq_some_iff.mp h
    cases he
    refine ⟨Bool.eq_false_iff.mpr hs, nid, nrec, hf, ?_⟩
    by_cases hi : nrec.importance ≤ c.record.importance
    · exact .inl ⟨hi, if_pos hi⟩
    · exact .inr ⟨hi, if_neg hi⟩

theorem removal_neighbor {a : String} {nid : UInt64} {nrec : MemoryRecord F} (hs : p.shadowMode = false)
    (hf : findDuplicate p x.engine c = some (a, nid, nrec)) (hi : nrec.importance ≤ c.record.importance) :
    removal p x c = some (a, nid) := by
  simp [removal, hs, hf, hi]

/-! ### Checks as rounds -/

variable {e : Engine F}

omit [Floats F] in
theorem contains_remove {s : MemoryStore F} {t id : UInt64} : (s.remove t).1.contains id = s.contains id := by
  have hload : ∀ s : MemoryStore F, s.contains id = (s.load id).isSome := fun s => by
    rw [MemoryStore.contains, MemoryStore.load, Option.isSome_or]
  rw [hload, hload]
  by_cases h : id = t
  · rw [h, MemoryStore.load_remove_self, Option.isSome_map]
  · rw [MemoryStore.load_remove_other h]

/-- What the checks so far leave: the stores contain what they did, what is left
is alive, and it is as it was. -/
structure Left (e : Engine F) (gone : String × UInt64 → Bool) (x : Cycle F) : Prop where
  agents : x.engine.agents = e.agents
  contains : ∀ a id, (x.engine.memory a).contains id = (e.memory a).contains id
  alive : ∀ a id, AliveIn (x.engine.memory a) id ↔ gone (a, id) = false
  load : ∀ a id, gone (a, id) = false → (x.engine.memory a).load id = (e.memory a).load id

omit [Floats F] in
theorem left_start (e : Engine F) : Left e (goneIn e) ⟨e, 0⟩ where
  agents := rfl
  contains := fun _ _ => rfl
  alive := fun a id => by simp [goneIn]
  load := fun _ _ _ => rfl

omit [Floats F] in
theorem Left.find {gone : String × UInt64 → Bool} (h : Left e gone x) (id : UInt64) :
    x.engine.findStoreForMemory x.engine.agents id = e.findStoreForMemory e.agents id := by
  unfold Engine.findStoreForMemory
  rw [h.agents]
  congr 1
  exact funext fun a => h.contains a id

/-- What was removed is no neighbour any more, and the others are as they were. -/
theorem Left.duplicate {gone : String × UInt64 → Bool} (h : Left e gone x) (a : String) (id nid : UInt64) :
    duplicate p (x.engine.memory a) id nid =
      if gone (a, nid) then none else duplicate p (e.memory a) id nid := by
  cases hg : gone (a, nid) with
  | true =>
    have hdead : ¬ AliveIn (x.engine.memory a) nid := fun ha => by
      rw [(h.alive a nid).mp ha] at hg
      cases hg
    rw [if_pos rfl]
    unfold Server.duplicate
    split
    · rfl
    · split
      · rfl
      · split
        · rename_i r hr
          exact if_neg fun ha => hdead ⟨r, hr, ha⟩
        · rfl
  | false =>
    have hpeek : (x.engine.memory a).peek nid = (e.memory a).peek nid := by
      unfold MemoryStore.peek
      rw [h.load a nid hg]
    rw [if_neg Bool.false_ne_true]
    unfold Server.duplicate
    rw [hpeek]

/-- The first neighbour that is left is the one a check finds. -/
theorem findSome?_left {β : Type} (gone : UInt64 → Bool) {f : UInt64 → Option (UInt64 × β)}
    (hf : ∀ n v, f n = some v → v.1 = n) : ∀ l : List UInt64,
    l.findSome? (fun n => if gone n then none else f n) = (l.filterMap f).find? fun v => !gone v.1
  | [] => rfl
  | n :: l => by
    have ih := findSome?_left gone hf l
    rw [List.findSome?_cons, ih]
    cases hn : f n with
    | none => rw [List.filterMap_cons_none hn, ite_self]
    | some v =>
      rw [List.filterMap_cons_some hn, List.find?_cons, hf n v hn]
      cases gone n <;> rfl

theorem duplicate_some {s : MemoryStore F} {id nid : UInt64} {n : UInt64 × MemoryRecord F}
    (h : Server.duplicate p s id nid = some n) : n.1 = nid ∧ nid ≠ id ∧ Similar p id nid ∧
      s.load nid = some n.2 ∧ n.2.isAlive = true := by
  unfold Server.duplicate at h
  split at h
  · cases h
  · rename_i hne
    split at h
    · cases h
    · rename_i hsim
      split at h
      · rename_i r hr
        obtain ⟨halive, heq⟩ := Option.ite_none_right_eq_some.mp h
        cases heq
        exact ⟨rfl, hne, hsim, (shows_iff.mp ⟨hr, halive⟩).1, halive⟩
      · cases h

/-- A check meets in its round what it finds in the store. -/
theorem Left.met {gone : String × UInt64 → Bool} (h : Left e gone x) (hs : p.shadowMode = false) (c : Check F) :
    Rounds.met gone (roundOf p e c) = (findDuplicate p x.engine c).map fun n =>
      ((n.1, n.2.1), decide (n.2.2.importance ≤ c.record.importance)) := by
  unfold roundOf findDuplicate
  rw [h.find]
  cases e.findStoreForMemory e.agents c.record.memoryId with
  | none => rfl
  | some a =>
    have hfirst : c.neighbors.findSome? (Server.duplicate p (x.engine.memory a) c.record.memoryId) =
        (c.neighbors.filterMap (Server.duplicate p (e.memory a) c.record.memoryId)).find? fun v => !gone (a, v.1) := by
      rw [← findSome?_left (fun n => gone (a, n)) fun n v hv => (duplicate_some hv).1]
      exact congrArg (List.findSome? · _) (funext fun n => h.duplicate a _ n)
    rw [Option.bind_some, hfirst, hs]
    show ((c.neighbors.filterMap (Server.duplicate p (e.memory a) c.record.memoryId)).map fun n =>
      ((a, n.1), decide (n.2.importance ≤ c.record.importance))).find? (fun o => !gone o.1) = _
    rw [List.find?_map, Option.map_map]
    rfl

/-- Nobody is met where removals are only counted. -/
theorem met_shadow (hs : p.shadowMode = true) (e : Engine F) (c : Check F) (gone : String × UInt64 → Bool) :
    Rounds.met gone (roundOf p e c) = none := by
  unfold roundOf Rounds.met
  rw [hs]
  cases e.findStoreForMemory e.agents c.record.memoryId <;> rfl

/-- What a check removes is what is left out in its round. -/
theorem Left.out {gone : String × UInt64 → Bool} (h : Left e gone x) (c : Check F) :
    Rounds.out gone (roundOf p e c) = removal p x c := by
  unfold removal Rounds.out
  cases hs : p.shadowMode with
  | true =>
    rw [met_shadow hs]
    rfl
  | false =>
    rw [h.met hs, Option.map_map, if_neg Bool.false_ne_true]
    cases hf : findDuplicate p x.engine c with
    | none => rfl
    | some n =>
      obtain ⟨a, ha, hn⟩ := Option.bind_eq_some_iff.mp hf
      obtain ⟨m, -, rfl⟩ := Option.map_eq_some_iff.mp hn
      have hself : (roundOf p e c).self = (a, c.record.memoryId) := by
        unfold roundOf
        rw [← h.find, ha]
      show some (if decide (m.2.importance ≤ c.record.importance) = true then (a, m.1) else (roundOf p e c).self) = _
      rw [hself]
      by_cases hi : m.2.importance ≤ c.record.importance <;> simp [hi]

theorem Left.dedup {gone : String × UInt64 → Bool} (h : Left e gone x) (c : Check F) :
    Left e (leave gone (roundOf p e c)) (dedup p x c) := by
  have halive : ∀ a id, AliveIn ((Server.dedup p x c).engine.memory a) id ↔
      leave gone (roundOf p e c) (a, id) = false := by
    intro a id
    rw [aliveIn_dedup, leave_eq_false, h.alive, h.out]
  have hstep : (Server.dedup p x c).engine.agents = x.engine.agents ∧ ∀ a,
      (Server.dedup p x c).engine.memory a = x.engine.memory a ∨ ∃ t, removal p x c = some (a, t) ∧
        (Server.dedup p x c).engine.memory a = ((x.engine.memory a).remove t).1 := by
    unfold Server.dedup removal
    cases hf : findDuplicate p x.engine c with
    | none => exact ⟨rfl, fun _ => .inl rfl⟩
    | some n =>
      cases p.shadowMode with
      | true => exact ⟨rfl, fun _ => .inl rfl⟩
      | false =>
        refine ⟨rfl, fun a => ?_⟩
        by_cases ha : a = n.1
        · subst ha
          exact .inr ⟨_, rfl, Function.update_self ..⟩
        · exact .inl (Function.update_of_ne ha _ _)
  refine ⟨hstep.1.trans h.agents, fun a id => ?_, halive, fun a id hleft => ?_⟩
  · obtain hsame | ⟨t, -, hremove⟩ := hstep.2 a
    · rw [hsame, h.contains]
    · rw [hremove, contains_remove, h.contains]
  · obtain ⟨hthere, hout⟩ := leave_eq_false.mp hleft
    rw [← h.load a id hthere]
    obtain hsame | ⟨t, ht, hremove⟩ := hstep.2 a
    · rw [hsame]
    · rw [hremove]
      refine MemoryStore.load_remove_other fun he => hout ?_
      rw [h.out, ht, he]

theorem left_run (cs : List (Check F)) :
    Left e (run leave (goneIn e) (cs.map (roundOf p e))) (run (dedup p) ⟨e, 0⟩ cs) := by
  induction cs using List.reverseRecOn with
  | nil => exact left_start e
  | append_singleton cs c ih =>
    rw [List.map_append, List.map_singleton, Run.run_concat, Run.run_concat]
    exact ih.dedup c

/-- Whom a check may meet is another record of its store that is similar. -/
theorem others_roundOf {o : (String × UInt64) × Bool} (h : o ∈ (roundOf p e c).others) :
    o.1 ≠ (roundOf p e c).self ∧ (roundOf p e c).self.1 = o.1.1 ∧ Similar p (roundOf p e c).self.2 o.1.2 := by
  unfold roundOf at h ⊢
  cases hf : e.findStoreForMemory e.agents c.record.memoryId with
  | none =>
    rw [hf] at h
    cases h
  | some a =>
    rw [hf] at h
    dsimp only at h ⊢
    split at h
    · cases h
    · obtain ⟨n, hn, rfl⟩ := List.mem_map.mp h
      obtain ⟨nid, -, hd⟩ := List.mem_filterMap.mp hn
      obtain ⟨heq, hne, hsim, -, -⟩ := duplicate_some hd
      rw [heq]
      exact ⟨fun he => hne (congrArg Prod.snd he), rfl, hsim⟩

/-- A check of a record that is not alive takes its neighbour away. -/
def TakesForGone (p : Dedup F) (x : Cycle F) (c : Check F) : Prop :=
  ∃ a nid, removal p x c = some (a, nid) ∧ nid ≠ c.record.memoryId ∧
    x.engine.findStoreForMemory x.engine.agents c.record.memoryId = some a ∧
      ¬ AliveIn (x.engine.memory a) c.record.memoryId

/-- A round in which one who is left out leaves out another is such a check. -/
theorem Left.takesForGone {gone : String × UInt64 → Bool} (h : Left e gone x)
    (hround : ¬ Present gone (roundOf p e c)) : TakesForGone p x c := by
  unfold Present at hround
  push Not at hround
  obtain ⟨hgone, o, hmet, hbelow⟩ := hround
  obtain ⟨ho, -⟩ := met_some hmet
  obtain ⟨hne, hstore, -⟩ := others_roundOf ho
  have hout : Rounds.out gone (roundOf p e c) = some o.1 := by
    unfold Rounds.out
    rw [hmet, Option.map_some, if_pos (Bool.not_eq_false _ ▸ hbelow)]
  have hself : e.findStoreForMemory e.agents c.record.memoryId = some (roundOf p e c).self.1 ∧
      (roundOf p e c).self.2 = c.record.memoryId := by
    unfold roundOf at ho ⊢
    cases hf : e.findStoreForMemory e.agents c.record.memoryId with
    | none =>
      rw [hf] at ho
      cases ho
    | some a => exact ⟨rfl, rfl⟩
  obtain ⟨hfind, hid⟩ := hself
  refine ⟨o.1.1, o.1.2, ?_, fun heq => hne (Prod.ext hstore.symm (heq.trans hid.symm)), ?_, fun halive => ?_⟩
  · rw [← h.out, hout]
  · rw [h.find, hfind, hstore]
  · rw [h.alive, ← hstore, ← hid, hgone] at halive
    cases halive

end Check

/-- Records 1 and 2 are similar, and no others. -/
def twinsOnly : Dedup ℤ := ⟨1, fun i j => if (i = 1 ∨ i = 2) ∧ (j = 1 ∨ j = 2) then 1 else 0, false⟩

def twin (id : UInt64) : MemoryRecord ℤ := { MemoryRecord.zero with memoryId := id, importance := 5, embedding := [1] }

/-- A store of two records of the same importance. -/
def twinStore : MemoryStore ℤ :=
  ((MemoryStore.new ⟨1, 3, 6, 10, 7, 100, .whole⟩).storeRecord (twin 1)).storeRecord (twin 2)

def twins : Engine ℤ := ⟨["a"], fun _ => twinStore, ⟨1, 3, 6, 10, 7, 100, .whole⟩, fun a => [Utf8.bytes a], true, 10⟩

theorem twinsOnly_symm (i j : UInt64) : twinsOnly.sim i j = twinsOnly.sim j i := by
  simp only [twinsOnly, and_comm]

theorem similar_twinsOnly {id : UInt64} (h : ReflTransGen (Similar twinsOnly) 1 id) : id = 1 ∨ id = 2 := by
  induction h with
  | refl => exact .inl rfl
  | tail _ hsim _ =>
    by_contra hne
    exact hsim (by simp [twinsOnly, hne])

end Server
end Amind
