/-
# Tenants in consolidation

The full mode compares the cached live records of all agents with each other,
the incremental mode a record with the neighbours its store finds. Neither asks
for agent, user or scope, and what is removed is what the first store has that
contains the id.

`respects_iff` says when a cycle respects tenants. In the full mode the live
records have their turns from the shortest vector on (`Lib/Turns`), in the
incremental one their rounds (`Lib/Rounds`), both told from the stores as they are
before the cycle. A cycle respects tenants exactly if those that meet there, similar
at the threshold, are of the same agent and user, or of the same agent and both
shared.
-/
import Amind.Consolidation.Dedup
import Amind.Server.Consolidation

namespace Amind
namespace Server

open Amind.Core Amind.Memory
open Amind.Consolidation (Merge DedupResult NormOrder LessImportant cosineSim dedupBy mergeOf merges_eq turnsOf)
open Rounds (leave)
open Run (run Along)

/-- What a cycle goes over: the cached live records of all agents, or a sample
or the latest of those that have an embedding. -/
inductive Mode
  | full
  | incremental (sampledFull : Option UInt64) (lastCycleTime : UInt32)
  deriving DecidableEq, Repr

/-- A live record that is removed from the store of an agent, what it was found
similar to, and what is kept for it. -/
structure Removal (F : Type) where
  agent : String
  id : UInt64
  removed : MemoryRecord F
  similar : MemoryRecord F
  kept : MemoryRecord F

/-! ### A cycle and its removals -/

section Cycle

variable {F : Type} [FloatOps F] (p : Dedup F)

def poolOf (e : Engine F) : List (MemoryRecord F) :=
  e.agents.flatMap fun a => (e.memory a).scanAll.filter MemoryRecord.isAlive

/-- What the full mode archives, in order. -/
def mergesOf (e : Engine F) (order : NormOrder (poolOf e)) : List (Merge F) :=
  (dedupBy cosineSim p.threshold order).1.flatMap DedupResult.merges

/-- Remove what is archived from the first store that contains its id. -/
def removeArchived (x : Cycle F) (m : Merge F) : Cycle F where
  engine :=
    if p.shadowMode then x.engine
    else
      match x.engine.findStoreForMemory x.engine.agents m.victim.memoryId with
      | some a => { x.engine with
          memory := Function.update x.engine.memory a ((x.engine.memory a).remove m.victim.memoryId).1 }
      | none => x.engine
  deduped := x.deduped + 1

def toCheck (e : Engine F) (sampledFull : Option UInt64) (lastCycleTime : UInt32) : List (MemoryRecord F) :=
  e.agents.flatMap fun a => (e.memory a).scanAll.filter fun r =>
    r.isAlive && decide (r.embedding ≠ []) &&
      match sampledFull with
      | some sampleMod => decide (r.memoryId % sampleMod = 0)
      | none => decide (lastCycleTime ≤ r.createdAt)

/-- The checks of the incremental mode; `neighbors` are the answers of the
searches, in order. -/
def checksOf (e : Engine F) (sampledFull : Option UInt64) (lastCycleTime : UInt32) (neighbors : ℕ → List UInt64) :
    List (Check F) :=
  (toCheck e sampledFull lastCycleTime).zipIdx.map fun r => ⟨r.1, neighbors r.2⟩

def consolidate (e : Engine F) (order : NormOrder (poolOf e)) (neighbors : ℕ → List UInt64) : Mode → Cycle F
  | .full => run (removeArchived p) ⟨e, 0⟩ (mergesOf p e order)
  | .incremental sampledFull lastCycleTime =>
    run (dedup p) ⟨e, 0⟩ (checksOf e sampledFull lastCycleTime neighbors)

/-- The removal of a record, if the store shows it alive. -/
def removalOf (e : Engine F) (a : String) (id : UInt64) (similar kept : MemoryRecord F) : Option (Removal F) :=
  ((e.memory a).load id).bind fun r => if r.isAlive then some ⟨a, id, r, similar, kept⟩ else none

/-- The live record that goes for a merge. -/
def removedFor (x : Cycle F) (m : Merge F) : Option (Removal F) :=
  if p.shadowMode then none
  else (x.engine.findStoreForMemory x.engine.agents m.victim.memoryId).bind fun a =>
    removalOf x.engine a m.victim.memoryId m.similar m.kept

/-- The live record that goes for a check. -/
def removedBy (x : Cycle F) (c : Check F) : Option (Removal F) :=
  if p.shadowMode then none
  else (findDuplicate p x.engine c).bind fun n =>
    if n.2.2.importance ≤ c.record.importance then removalOf x.engine n.1 n.2.1 c.record c.record
    else removalOf x.engine n.1 c.record.memoryId n.2.2 n.2.2

/-- What the steps of a run remove. -/
def trace {O : Type} (step : Cycle F → O → Cycle F) (removedIn : Cycle F → O → Option (Removal F)) :
    Cycle F → List O → List (Removal F)
  | _, [] => []
  | x, o :: os => (removedIn x o).toList ++ trace step removedIn (step x o) os

def removals (e : Engine F) (order : NormOrder (poolOf e)) (neighbors : ℕ → List UInt64) : Mode → List (Removal F)
  | .full => trace (removeArchived p) (removedFor p) ⟨e, 0⟩ (mergesOf p e order)
  | .incremental sampledFull lastCycleTime =>
    trace (dedup p) (removedBy p) ⟨e, 0⟩ (checksOf e sampledFull lastCycleTime neighbors)

end Cycle

/-- When cycles run and what they go over. -/
structure ConsolidationSettings where
  incremental : Bool := true
  sampledFullEvery : UInt32 := 24
  sampleMod : UInt64 := 20

/-- The engine with the times of its consolidation. -/
structure Consolidator (F : Type) where
  engine : Engine F
  lastCycleTime : UInt32 := 0
  cycleCount : UInt32 := 0

structure ConsolidationCycleResult where
  checked : ℕ
  deduped : ℕ
  sampledFull : Bool
  deriving DecidableEq, Repr

section Once

variable {F : Type} [FloatOps F]

def ConsolidationSettings.isSampledFull (c : ConsolidationSettings) (cycleCount : UInt32) : Bool :=
  c.incremental && decide (0 < c.sampledFullEvery) && decide (cycleCount % c.sampledFullEvery = 0)

def ConsolidationSettings.mode (c : ConsolidationSettings) (lastCycleTime cycleCount : UInt32) : Mode :=
  if c.incremental then .incremental (if c.isSampledFull cycleCount then some c.sampleMod else none) lastCycleTime
  else .full

/-- The time of the last cycle, which the first one sets. -/
def Consolidator.since (x : Consolidator F) (now : UInt32) : UInt32 :=
  if x.lastCycleTime = 0 then now else x.lastCycleTime

/-- One cycle. `first` and `now` are the two readings of the clock, `order` is how
the sort leaves the pool. -/
def runConsolidationCycleOnce (p : Dedup F) (c : ConsolidationSettings) (x : Consolidator F) (first now : UInt32)
    (order : NormOrder (poolOf x.engine)) (neighbors : ℕ → List UInt64) : Consolidator F × ConsolidationCycleResult :=
  let mode := c.mode (x.since first) (x.cycleCount + 1)
  let out := consolidate p x.engine order neighbors mode
  ({ engine := out.engine, lastCycleTime := now, cycleCount := x.cycleCount + 1 },
    { checked :=
        match mode with
        | .full => (poolOf x.engine).length
        | .incremental sampledFull lastCycleTime => (toCheck x.engine sampledFull lastCycleTime).length
      deduped := out.deduped
      sampledFull := c.isSampledFull (x.cycleCount + 1) })

end Once

/-! ### Respecting tenants -/

section Tenants

variable {F : Type}

/-- A record may go for another that it is similar to, with a third kept for
it. -/
structure Tenants (r similar kept : MemoryRecord F) : Prop where
  agent : r.agentId = similar.agentId
  «private» : r.scope = .private → r.userId = similar.userId
  shared : r.scope ≠ .private → kept.scope = .private → r.userId = kept.userId

/-- Two records of one agent, of one user or both shared. -/
def SameTenant (r k : MemoryRecord F) : Prop :=
  r.agentId = k.agentId ∧ (r.userId = k.userId ∨ r.scope ≠ .private ∧ k.scope ≠ .private)

instance (r k : MemoryRecord F) : Decidable (SameTenant r k) :=
  inferInstanceAs (Decidable (r.agentId = k.agentId ∧ (r.userId = k.userId ∨ r.scope ≠ .private ∧ k.scope ≠ .private)))

/-- With the similar record kept, either may go if they are of one tenant. -/
theorem tenants_iff {r k : MemoryRecord F} : Tenants r k k ↔ SameTenant r k := by
  constructor
  · intro h
    refine ⟨h.agent, ?_⟩
    by_cases hr : r.scope = .private
    · exact .inl (h.private hr)
    · by_cases hk : k.scope = .private
      · exact .inl (h.shared hr hk)
      · exact .inr ⟨hr, hk⟩
  · rintro ⟨ha, hu | ⟨hr, hk⟩⟩
    · exact ⟨ha, fun _ => hu, fun _ _ => hu⟩
    · exact ⟨ha, fun h => absurd h hr, fun _ h => absurd h hk⟩

variable [FloatOps F] (p : Dedup F)

/-- The neighbour that a record meets in its round is of its tenant; of the record
that goes, as the store has it. -/
def TenantRound (e : Engine F) (gone : String × UInt64 → Bool) (c : Check F) : Prop :=
  ∀ o, Rounds.met gone (roundOf p e c) = some o → ∀ nrec, (e.memory o.1.1).load o.1.2 = some nrec →
    if o.2 then SameTenant nrec c.record
    else gone (o.1.1, c.record.memoryId) = false →
      ∀ r, (e.memory o.1.1).load c.record.memoryId = some r → SameTenant r nrec

/-- What is given in the turns of the pool, with what it is similar to and what is
kept for it. -/
def turnMerges (e : Engine F) (order : NormOrder (poolOf e)) : List (Merge F) :=
  (turnsOf cosineSim p.threshold (fun _ => false) order.toList).flatMap fun t =>
    (Turns.gives LessImportant t.1 t.2 t.1).map mergeOf

/-- The merges of the pool are within tenants, as the first store that contains
the id has the record that is archived. A second merge of an id removes
nothing. -/
def TenantMerges (e : Engine F) (merges : List (Merge F)) : Prop :=
  p.shadowMode = false → ∀ front m back, merges = front ++ m :: back →
    m.victim.memoryId ∉ front.map (·.victim.memoryId) →
    ∀ a, e.findStoreForMemory e.agents m.victim.memoryId = some a →
      ∀ r, (e.memory a).load m.victim.memoryId = some r → r.isAlive = true → Tenants r m.similar m.kept

/-- Those that meet in the turns or the rounds are of one tenant. -/
def WithinTenants (e : Engine F) (order : NormOrder (poolOf e)) (neighbors : ℕ → List UInt64) : Mode → Prop
  | .full => TenantMerges p e (turnMerges p e order)
  | .incremental sampledFull lastCycleTime =>
    Along (fun gone c => leave gone (roundOf p e c)) (TenantRound p e) (goneIn e)
      (checksOf e sampledFull lastCycleTime neighbors)

end Tenants

/-! ### What the steps remove -/

section Trace

variable {F O : Type} {step : Cycle F → O → Cycle F} {removedIn : Cycle F → O → Option (Removal F)}

theorem mem_trace {v : Removal F} : ∀ {os : List O} {x : Cycle F}, v ∈ trace step removedIn x os ↔
    ∃ front o back, os = front ++ o :: back ∧ removedIn (run step x front) o = some v
  | [], x => by
    constructor
    · exact fun h => absurd h List.not_mem_nil
    · rintro ⟨front, o, back, he, -⟩
      exact absurd he (by simp)
  | o :: os, x => by
    rw [trace, List.mem_append, Option.mem_toList, mem_trace]
    constructor
    · rintro (h | ⟨front, o', back, rfl, h⟩)
      · exact ⟨[], o, os, rfl, h⟩
      · exact ⟨o :: front, o', back, rfl, h⟩
    · rintro ⟨front, o', back, he, h⟩
      cases front with
      | nil =>
        obtain ⟨rfl, rfl⟩ := List.cons.inj he
        exact .inl h
      | cons o'' front =>
        obtain ⟨rfl, rfl⟩ := List.cons.inj he
        exact .inr ⟨front, o', back, rfl, h⟩

/-- What steps remove is what is alive before them and not after. -/
theorem trace_iff (hstep : ∀ x o a id, AliveIn ((step x o).engine.memory a) id ↔
      AliveIn (x.engine.memory a) id ∧ ¬ ∃ v, removedIn x o = some v ∧ v.agent = a ∧ v.id = id)
    (halive : ∀ x o v, removedIn x o = some v → AliveIn (x.engine.memory v.agent) v.id) {a : String} {id : UInt64} :
    ∀ {os : List O} {x : Cycle F}, (∃ v ∈ trace step removedIn x os, v.agent = a ∧ v.id = id) ↔
      AliveIn (x.engine.memory a) id ∧ ¬ AliveIn ((run step x os).engine.memory a) id
  | [], x => by
    constructor
    · rintro ⟨v, hv, -⟩
      cases hv
    · exact fun h => absurd h.1 h.2
  | o :: os, x => by
    have ih : (∃ v ∈ trace step removedIn (step x o) os, v.agent = a ∧ v.id = id) ↔
        AliveIn ((step x o).engine.memory a) id ∧ ¬ AliveIn ((run step (step x o) os).engine.memory a) id :=
      trace_iff hstep halive
    rw [hstep] at ih
    rw [Run.run_cons]
    constructor
    · rintro ⟨v, hv, hva, hvid⟩
      rcases List.mem_append.mp hv with hv | hv
      · rw [Option.mem_toList] at hv
        refine ⟨hva ▸ hvid ▸ halive x o v hv, fun hrun => ?_⟩
        -- nothing comes alive in the rest of the run
        have hnever : ∀ (os : List O) (x : Cycle F), AliveIn ((run step x os).engine.memory a) id →
            AliveIn (x.engine.memory a) id := by
          intro os
          induction os with
          | nil => exact fun _ h => h
          | cons o os ih => exact fun x h => ((hstep x o a id).mp (ih (step x o) h)).1
        exact ((hstep x o a id).mp (hnever os _ hrun)).2 ⟨v, hv, hva, hvid⟩
      · exact ⟨(ih.mp ⟨v, hv, hva, hvid⟩).1.1, (ih.mp ⟨v, hv, hva, hvid⟩).2⟩
    · rintro ⟨h, hrun⟩
      by_cases hv : ∃ v, removedIn x o = some v ∧ v.agent = a ∧ v.id = id
      · obtain ⟨v, hv, hva, hvid⟩ := hv
        exact ⟨v, List.mem_append_left _ (Option.mem_toList.mpr hv), hva, hvid⟩
      · obtain ⟨v, hv, hva, hvid⟩ := ih.mpr ⟨⟨h, hv⟩, hrun⟩
        exact ⟨v, List.mem_append_right _ hv, hva, hvid⟩

theorem removalOf_some {e : Engine F} {a : String} {id : UInt64} {similar kept : MemoryRecord F} {v : Removal F} :
    removalOf e a id similar kept = some v ↔ v.agent = a ∧ v.id = id ∧ v.similar = similar ∧ v.kept = kept ∧
      (e.memory a).load id = some v.removed ∧ v.removed.isAlive = true := by
  unfold removalOf
  constructor
  · intro h
    obtain ⟨r, hr, hv⟩ := Option.bind_eq_some_iff.mp h
    obtain ⟨ha, hv⟩ := Option.ite_none_right_eq_some.mp hv
    obtain rfl := Option.some.inj hv
    exact ⟨rfl, rfl, rfl, rfl, hr, ha⟩
  · obtain ⟨b, i, r, t, k⟩ := v
    rintro ⟨rfl, rfl, rfl, rfl, hr, ha⟩
    exact Option.bind_eq_some_iff.mpr ⟨r, hr, if_pos ha⟩

theorem removalOf_alive {e : Engine F} {a : String} {id : UInt64} {similar kept : MemoryRecord F} {b : String}
    {i : UInt64} : (∃ v, removalOf e a id similar kept = some v ∧ v.agent = b ∧ v.id = i) ↔
      b = a ∧ i = id ∧ AliveIn (e.memory a) id := by
  constructor
  · rintro ⟨v, hv, rfl, rfl⟩
    obtain ⟨ha, hi, -, -, hr, halive⟩ := removalOf_some.mp hv
    exact ⟨ha, hi, aliveIn_iff.mpr ⟨v.removed, hr, halive⟩⟩
  · rintro ⟨rfl, rfl, h⟩
    obtain ⟨r, hr, halive⟩ := aliveIn_iff.mp h
    exact ⟨⟨b, i, r, similar, kept⟩, removalOf_some.mpr ⟨rfl, rfl, rfl, rfl, hr, halive⟩, rfl, rfl⟩

end Trace

/-! ### The incremental mode -/

section Incremental

variable {F : Type} [FloatOps F] {p : Dedup F} {x : Cycle F} {c : Check F}

theorem load_findDuplicate {a : String} {nid : UInt64} {nrec : MemoryRecord F}
    (h : findDuplicate p x.engine c = some (a, nid, nrec)) :
    (x.engine.memory a).load nid = some nrec ∧ nrec.isAlive = true := by
  obtain ⟨-, -, hpeek, halive⟩ := peek_findDuplicate h
  exact shows_iff.mp ⟨hpeek, halive⟩

theorem removedBy_some {v : Removal F} (h : removedBy p x c = some v) : p.shadowMode = false ∧
    ∃ a nid nrec, findDuplicate p x.engine c = some (a, nid, nrec) ∧
      (nrec.importance ≤ c.record.importance ∧ removalOf x.engine a nid c.record c.record = some v ∨
        ¬ nrec.importance ≤ c.record.importance ∧ removalOf x.engine a c.record.memoryId nrec nrec = some v) := by
  unfold removedBy at h
  split at h
  · cases h
  · rename_i hs
    obtain ⟨⟨a, nid, nrec⟩, hf, hv⟩ := Option.bind_eq_some_iff.mp h
    refine ⟨Bool.eq_false_iff.mpr hs, a, nid, nrec, hf, ?_⟩
    by_cases hi : nrec.importance ≤ c.record.importance
    · exact .inl ⟨hi, (if_pos hi).symm.trans hv⟩
    · exact .inr ⟨hi, (if_neg hi).symm.trans hv⟩

theorem removedBy_eq (hs : p.shadowMode = false) {a : String} {nid : UInt64} {nrec : MemoryRecord F}
    (hf : findDuplicate p x.engine c = some (a, nid, nrec)) : removedBy p x c =
      if nrec.importance ≤ c.record.importance then removalOf x.engine a nid c.record c.record
      else removalOf x.engine a c.record.memoryId nrec nrec := by
  rw [removedBy, hs, hf]
  rfl

/-- **What a check removes respects tenants exactly if those that meet in its round
are of one.** -/
theorem Left.tenantRound_iff {e : Engine F} {gone : String × UInt64 → Bool} (h : Left e gone x) (c : Check F) :
    TenantRound p e gone c ↔ ∀ v, removedBy p x c = some v → Tenants v.removed v.similar v.kept := by
  cases hs : p.shadowMode with
  | true =>
    have hmet : Rounds.met gone (roundOf p e c) = none := met_shadow hs e c gone
    have hremoved : removedBy p x c = none := if_pos hs
    rw [TenantRound, hmet, hremoved]
    exact iff_of_true (fun _ ho => by cases ho) (fun _ hv => by cases hv)
  | false =>
    rw [TenantRound, h.met hs]
    cases hf : findDuplicate p x.engine c with
    | none =>
      have hremoved : removedBy p x c = none := by
        rw [removedBy, hs, hf]
        rfl
      rw [hremoved]
      exact iff_of_true (fun _ ho => by cases ho) (fun _ hv => by cases hv)
    | some n =>
      obtain ⟨a, nid, nrec⟩ := n
      obtain ⟨hload, halive⟩ := load_findDuplicate hf
      -- the neighbour is alive, and so as it was
      have hthere : gone (a, nid) = false := (h.alive a nid).mp (aliveIn_iff.mpr ⟨nrec, hload, halive⟩)
      have hsame : (e.memory a).load nid = some nrec := (h.load a nid hthere).symm.trans hload
      rw [removedBy_eq hs hf]
      by_cases hi : nrec.importance ≤ c.record.importance
      · rw [if_pos hi]
        constructor
        · intro hround v hv
          obtain ⟨-, -, hsim, hkept, hr, -⟩ := removalOf_some.mp hv
          have hpair := hround _ rfl nrec hsame
          rw [if_pos (decide_eq_true hi)] at hpair
          rw [← Option.some.inj (hload.symm.trans hr), hsim, hkept]
          exact tenants_iff.mpr hpair
        · rintro hall o ⟨⟩ r hr
          obtain rfl := Option.some.inj (hsame.symm.trans hr)
          rw [if_pos (decide_eq_true hi)]
          exact tenants_iff.mp (hall ⟨a, nid, nrec, c.record, c.record⟩
            (removalOf_some.mpr ⟨rfl, rfl, rfl, rfl, hload, halive⟩))
      · rw [if_neg hi]
        have hnot : ¬ decide (nrec.importance ≤ c.record.importance) = true := by simpa using hi
        constructor
        · intro hround v hv
          obtain ⟨-, -, hsim, hkept, hr, ha⟩ := removalOf_some.mp hv
          have hpair := hround _ rfl nrec hsame
          rw [if_neg hnot] at hpair
          have hremains : gone (a, c.record.memoryId) = false :=
            (h.alive a _).mp (aliveIn_iff.mpr ⟨v.removed, hr, ha⟩)
          rw [hsim, hkept]
          exact tenants_iff.mpr (hpair hremains v.removed ((h.load a _ hremains).symm.trans hr))
        · rintro hall o ⟨⟩ r' hr'
          obtain rfl := Option.some.inj (hsame.symm.trans hr')
          rw [if_neg hnot]
          intro hremains r hr
          have hr : (x.engine.memory a).load c.record.memoryId = some r := (h.load a _ hremains).trans hr
          obtain ⟨r₀, hr₀, ha⟩ := aliveIn_iff.mp ((h.alive a _).mpr hremains)
          obtain rfl := Option.some.inj (hr₀.symm.trans hr)
          exact tenants_iff.mp (hall ⟨a, c.record.memoryId, r₀, nrec, nrec⟩
            (removalOf_some.mpr ⟨rfl, rfl, rfl, rfl, hr, ha⟩))

theorem alive_removedBy {v : Removal F} (h : removedBy p x c = some v) : AliveIn (x.engine.memory v.agent) v.id := by
  obtain ⟨-, a, nid, nrec, -, ⟨-, hv⟩ | ⟨-, hv⟩⟩ := removedBy_some h
  · obtain ⟨ha, hi, -, -, hr, halive⟩ := removalOf_some.mp hv
    exact ha ▸ hi ▸ aliveIn_iff.mpr ⟨v.removed, hr, halive⟩
  · obtain ⟨ha, hi, -, -, hr, halive⟩ := removalOf_some.mp hv
    exact ha ▸ hi ▸ aliveIn_iff.mpr ⟨v.removed, hr, halive⟩

/-- A check takes away the record that `removedBy` says. -/
theorem aliveIn_dedup_removedBy (x : Cycle F) (c : Check F) (a : String) (id : UInt64) :
    AliveIn ((dedup p x c).engine.memory a) id ↔
      AliveIn (x.engine.memory a) id ∧ ¬ ∃ v, removedBy p x c = some v ∧ v.agent = a ∧ v.id = id := by
  rw [aliveIn_dedup]
  refine and_congr_right fun h => not_congr ?_
  constructor
  · intro hr
    obtain ⟨hs, nid, nrec, hf, ⟨hi, rfl⟩ | ⟨hi, rfl⟩⟩ := removal_some hr
    · rw [removedBy_eq hs hf, if_pos hi]
      exact removalOf_alive.mpr ⟨rfl, rfl, h⟩
    · rw [removedBy_eq hs hf, if_neg hi]
      exact removalOf_alive.mpr ⟨rfl, rfl, h⟩
  · rintro ⟨v, hv, rfl, rfl⟩
    obtain ⟨hs, b, nid, nrec, hf, ⟨hi, hv⟩ | ⟨hi, hv⟩⟩ := removedBy_some hv
    · obtain ⟨ha, hid, -⟩ := removalOf_some.mp hv
      rw [removal_neighbor hs hf hi, ha, hid]
    · obtain ⟨ha, hid, -⟩ := removalOf_some.mp hv
      simp [removal, hs, hf, hi, ha, hid]

end Incremental

/-! ### The full mode -/

section Full

variable {F : Type} {p : Dedup F} {x : Cycle F} {m : Merge F} {e : Engine F}

theorem removeArchived_some (hs : p.shadowMode = false) {a : String}
    (ha : x.engine.findStoreForMemory x.engine.agents m.victim.memoryId = some a) :
    (removeArchived p x m).engine = { x.engine with
      memory := Function.update x.engine.memory a ((x.engine.memory a).remove m.victim.memoryId).1 } := by
  rw [removeArchived, hs, ha]
  rfl

/-- A merge takes away the record that `removedFor` says. -/
theorem aliveIn_removeArchived (x : Cycle F) (m : Merge F) (a : String) (id : UInt64) :
    AliveIn ((removeArchived p x m).engine.memory a) id ↔
      AliveIn (x.engine.memory a) id ∧ ¬ ∃ v, removedFor p x m = some v ∧ v.agent = a ∧ v.id = id := by
  unfold removedFor
  cases hs : p.shadowMode with
  | true => simp [removeArchived, hs]
  | false =>
    cases hb : x.engine.findStoreForMemory x.engine.agents m.victim.memoryId with
    | none => simp [removeArchived, hs, hb]
    | some b =>
      rw [removeArchived_some hs hb]
      simp only [Bool.false_eq_true, if_false, Option.bind_some, removalOf_alive]
      by_cases hab : a = b
      · subst hab
        rw [Function.update_self, aliveIn_remove]
        constructor
        · exact fun h => ⟨h.2, fun h' => h.1 h'.2.1⟩
        · exact fun h => ⟨fun hid => h.2 ⟨rfl, hid, hid ▸ h.1⟩, h.1⟩
      · rw [Function.update_of_ne hab]
        exact ⟨fun h => ⟨h, fun h' => hab h'.1⟩, fun h => h.1⟩

/-- What the merges so far leave: the agents, what their stores contain, and the
records that were not removed. -/
structure Remaining (e : Engine F) (ms : List (Merge F)) (x : Cycle F) : Prop where
  agents : x.engine.agents = e.agents
  contains : ∀ a id, (x.engine.memory a).contains id = (e.memory a).contains id
  load : ∀ a id r, (x.engine.memory a).load id = some r ∧ r.isAlive = true ↔
    ((e.memory a).load id = some r ∧ r.isAlive = true) ∧
      ¬ (id ∈ ms.map (·.victim.memoryId) ∧ e.findStoreForMemory e.agents id = some a)

theorem Remaining.find {ms : List (Merge F)} (h : Remaining e ms x) (id : UInt64) :
    x.engine.findStoreForMemory x.engine.agents id = e.findStoreForMemory e.agents id := by
  unfold Engine.findStoreForMemory
  rw [h.agents]
  congr 1
  exact funext fun a => h.contains a id

theorem Remaining.step {ms : List (Merge F)} (hs : p.shadowMode = false) (h : Remaining e ms x) (m : Merge F) :
    Remaining e (ms ++ [m]) (removeArchived p x m) := by
  have hfind := h.find m.victim.memoryId
  have hmem : ∀ id, id ∈ (ms ++ [m]).map (·.victim.memoryId) ↔
      id ∈ ms.map (·.victim.memoryId) ∨ id = m.victim.memoryId := fun id => by simp
  cases hb : e.findStoreForMemory e.agents m.victim.memoryId with
  | none =>
    have hx : (removeArchived p x m).engine = x.engine := by
      rw [removeArchived, hs, hfind, hb]
      rfl
    refine ⟨by rw [hx]; exact h.agents, by rw [hx]; exact h.contains, fun a id r => ?_⟩
    rw [hx, h.load, hmem]
    refine and_congr_right fun _ => not_congr (and_congr_left fun ha => ?_)
    exact ⟨.inl, fun h' => h'.resolve_right fun he => by rw [he, hb] at ha; cases ha⟩
  | some b =>
    rw [hb] at hfind
    have hx := removeArchived_some hs hfind
    refine ⟨by rw [hx]; exact h.agents, fun a id => ?_, fun a id r => ?_⟩
    · rw [hx]
      show (Function.update x.engine.memory b _ a).contains id = _
      by_cases hab : a = b
      · rw [hab, Function.update_self, contains_remove]
        exact h.contains b id
      · rw [Function.update_of_ne hab]
        exact h.contains a id
    · rw [hx, hmem]
      show (Function.update x.engine.memory b _ a).load id = some r ∧ _ ↔ _
      by_cases hab : a = b
      · subst hab
        rw [Function.update_self]
        by_cases hid : id = m.victim.memoryId
        · subst hid
          rw [MemoryStore.load_remove_self]
          refine iff_of_false ?_ fun h' => h'.2 ⟨.inr rfl, hb⟩
          rintro ⟨hl, ha⟩
          obtain ⟨r₀, -, rfl⟩ := Option.map_eq_some_iff.mp hl
          rw [((MemoryRecord.tombstoned_markTombstone r₀).wire _).not_alive] at ha
          cases ha
        · rw [MemoryStore.load_remove_other hid, h.load]
          refine and_congr_right fun _ => not_congr (and_congr_left fun _ => ?_)
          exact ⟨.inl, fun h' => h'.resolve_right hid⟩
      · rw [Function.update_of_ne hab, h.load]
        refine and_congr_right fun _ => not_congr (and_congr_left fun ha => ?_)
        refine ⟨.inl, fun h' => h'.resolve_right fun he => hab ?_⟩
        rw [he, hb] at ha
        exact (Option.some.inj ha).symm

theorem remaining_run (hs : p.shadowMode = false) (ms : List (Merge F)) :
    Remaining e ms (run (removeArchived p) ⟨e, 0⟩ ms) := by
  induction ms using List.reverseRecOn with
  | nil => exact ⟨rfl, fun _ _ => rfl, fun _ _ _ => by simp⟩
  | append_singleton ms m ih =>
    rw [Run.run_concat]
    exact ih.step hs m

/-- **What the merges remove respects tenants exactly if the first merge of each
id does.** -/
theorem tenantMerges_iff (ms : List (Merge F)) : TenantMerges p e ms ↔
    ∀ v ∈ trace (removeArchived p) (removedFor p) ⟨e, 0⟩ ms, Tenants v.removed v.similar v.kept := by
  constructor
  · intro h v hv
    obtain ⟨front, m, back, hms, hv⟩ := mem_trace.mp hv
    unfold removedFor at hv
    split at hv
    · cases hv
    · rename_i hs
      have hs : p.shadowMode = false := Bool.eq_false_iff.mpr hs
      have hremains := remaining_run (e := e) hs front
      obtain ⟨a, ha, hv⟩ := Option.bind_eq_some_iff.mp hv
      rw [hremains.find] at ha
      obtain ⟨-, -, hsim, hkept, hr, halive⟩ := removalOf_some.mp hv
      obtain ⟨hold, hfirst⟩ := (hremains.load a _ _).mp ⟨hr, halive⟩
      rw [hsim, hkept]
      exact h hs front m back hms (fun hm => hfirst ⟨hm, ha⟩) a ha v.removed hold.1 hold.2
  · intro h hs front m back hms hfirst a ha r hr halive
    have hremains := remaining_run (e := e) hs front
    have hnow := (hremains.load a m.victim.memoryId r).mpr ⟨⟨hr, halive⟩, fun hm => hfirst hm.1⟩
    have hv : removedFor p (run (removeArchived p) ⟨e, 0⟩ front) m =
        some ⟨a, m.victim.memoryId, r, m.similar, m.kept⟩ := by
      rw [removedFor, hs, hremains.find, ha]
      exact removalOf_some.mpr ⟨rfl, rfl, rfl, rfl, hnow.1, hnow.2⟩
    exact h _ (mem_trace.mpr ⟨front, m, back, hms, hv⟩)

theorem alive_removedFor {v : Removal F} (h : removedFor p x m = some v) : AliveIn (x.engine.memory v.agent) v.id := by
  unfold removedFor at h
  split at h
  · cases h
  · obtain ⟨a, -, hv⟩ := Option.bind_eq_some_iff.mp h
    obtain ⟨ha, hi, -, -, hr, halive⟩ := removalOf_some.mp hv
    exact ha ▸ hi ▸ aliveIn_iff.mpr ⟨v.removed, hr, halive⟩

end Full

/-! ### A cycle -/

section Main

variable {F : Type} [FloatOps F] (p : Dedup F) (e : Engine F) (order : NormOrder (poolOf e))
  (neighbors : ℕ → List UInt64) (mode : Mode)

/-- The removals are what a cycle takes away. -/
theorem removals_iff (a : String) (id : UInt64) :
    (∃ v ∈ removals p e order neighbors mode, v.agent = a ∧ v.id = id) ↔
      AliveIn (e.memory a) id ∧ ¬ AliveIn ((consolidate p e order neighbors mode).engine.memory a) id := by
  cases mode with
  | full => exact trace_iff aliveIn_removeArchived (fun _ _ _ h => alive_removedFor h)
  | incremental sampledFull lastCycleTime =>
    exact trace_iff aliveIn_dedup_removedBy (fun _ _ _ h => alive_removedBy h)

variable {p e} in
/-- The checks remove within tenants exactly if the rounds are. -/
theorem tenantRounds_iff : ∀ {cs : List (Check F)} {gone : String × UInt64 → Bool} {x : Cycle F}, Left e gone x →
    ((∀ v ∈ trace (dedup p) (removedBy p) x cs, Tenants v.removed v.similar v.kept) ↔
      Along (fun gone c => leave gone (roundOf p e c)) (TenantRound p e) gone cs)
  | [], _, _, _ => iff_of_true (fun _ h => absurd h List.not_mem_nil) trivial
  | c :: cs, gone, x, h => by
    rw [trace, List.forall_mem_append, tenantRounds_iff (h.dedup c), Along, h.tenantRound_iff c]
    refine and_congr_left fun _ => ?_
    exact forall_congr' fun v => by rw [Option.mem_toList]

theorem removals_tenants_iff : (∀ v ∈ removals p e order neighbors mode, Tenants v.removed v.similar v.kept) ↔
    WithinTenants p e order neighbors mode := by
  cases mode with
  | full =>
    have hmerges : mergesOf p e order = turnMerges p e order := merges_eq cosineSim p.threshold order
    show (∀ v ∈ trace _ _ _ (mergesOf p e order), _) ↔ TenantMerges p e (turnMerges p e order)
    rw [hmerges]
    exact (tenantMerges_iff (turnMerges p e order)).symm
  | incremental sampledFull lastCycleTime => exact tenantRounds_iff (left_start e)

/-- **A cycle respects tenants exactly if those that meet in its turns or rounds are
of one.** The removals are what the cycle takes away; each of them is of a record
of the same agent as the similar one, and of the same user where one that is
private is involved, if and only if the records that come to meet, by the norms of
their vectors or as neighbours in the order of the checks, are of one tenant where
they are similar at the threshold. -/
theorem respects_iff (c : ConsolidationSettings) (x : Consolidator F) (first now : UInt32)
    (order : NormOrder (poolOf x.engine)) :
    (∀ a id, (∃ v ∈ removals p x.engine order neighbors (c.mode (x.since first) (x.cycleCount + 1)),
        v.agent = a ∧ v.id = id) ↔
      AliveIn (x.engine.memory a) id ∧
        ¬ AliveIn ((runConsolidationCycleOnce p c x first now order neighbors).1.engine.memory a) id) ∧
    ((∀ v ∈ removals p x.engine order neighbors (c.mode (x.since first) (x.cycleCount + 1)),
        Tenants v.removed v.similar v.kept) ↔
      WithinTenants p x.engine order neighbors (c.mode (x.since first) (x.cycleCount + 1))) :=
  ⟨fun a id => removals_iff p x.engine order neighbors _ a id, removals_tenants_iff p x.engine order neighbors _⟩

end Main

/-! ### Twins of two tenants -/

/-- Every two notes are similar. -/
def allSimilar : Dedup ℚ := ⟨0.95, fun _ _ => 1, false⟩

/-- A private note of a user, the same for all. -/
def tenantNote (id : UInt64) (agent user : String) : MemoryRecord ℚ :=
  { MemoryRecord.zero with
    memoryId := id, importance := 0.5, embedding := [3, 4], agentId := Utf8.bytes agent, userId := Utf8.bytes user }

def tenantConfig : Config ℚ := ⟨2, 3, 0.6, 10, 0.7, 100, .whole⟩

def tenantStore (notes : List (MemoryRecord ℚ)) : MemoryStore ℚ :=
  notes.foldl MemoryStore.storeRecord (MemoryStore.new tenantConfig)

/-- Two agents with a note each. -/
def twoAgents : Consolidator ℚ where
  engine :=
    { agents := ["a", "b"]
      memory := fun a => tenantStore (if a = "a" then [tenantNote 1 "a" "ann"] else [tenantNote 2 "b" "ann"])
      storeConfig := tenantConfig
      dirOf := fun a => [Utf8.bytes a]
      agentAutoCreate := true
      maxAgents := 10 }

/-- An agent with private notes of two users. -/
def twoUsers : Consolidator ℚ where
  engine :=
    { agents := ["a"]
      memory := fun _ => tenantStore [tenantNote 1 "a" "ann", tenantNote 2 "a" "bob"]
      storeConfig := tenantConfig
      dirOf := fun a => [Utf8.bytes a]
      agentAutoCreate := true
      maxAgents := 10 }

/-- The pools in their order, which the sort keeps. -/
def ofTwoAgents : NormOrder (poolOf twoAgents.engine) :=
  ⟨Consolidation.entries (poolOf twoAgents.engine), List.perm_insertionSort _ _, by decide +kernel⟩

def ofTwoUsers : NormOrder (poolOf twoUsers.engine) :=
  ⟨Consolidation.entries (poolOf twoUsers.engine), List.perm_insertionSort _ _, by decide +kernel⟩

/-- The full mode removes a note for another agent's, the incremental mode one
for another user's. -/
theorem twins_cross_tenants :
    (¬ ∀ v ∈ removals allSimilar twoAgents.engine ofTwoAgents (fun _ => [])
      (({ incremental := false } : ConsolidationSettings).mode (twoAgents.since 7) (twoAgents.cycleCount + 1)),
        Tenants v.removed v.similar v.kept) ∧
    ¬ ∀ v ∈ removals allSimilar twoUsers.engine ofTwoUsers (fun _ => [1, 2])
      (({} : ConsolidationSettings).mode (twoUsers.since 0) (twoUsers.cycleCount + 1)),
        Tenants v.removed v.similar v.kept := by
  constructor
  · intro h
    have hcross : (removals allSimilar twoAgents.engine ofTwoAgents (fun _ => [])
        (({ incremental := false } : ConsolidationSettings).mode (twoAgents.since 7) (twoAgents.cycleCount + 1))).any
          (fun v => v.removed.agentId ≠ v.similar.agentId) = true := by decide +kernel
    obtain ⟨v, hv, hne⟩ := List.any_eq_true.mp hcross
    exact of_decide_eq_true hne (h v hv).agent
  · intro h
    have hcross : (removals allSimilar twoUsers.engine ofTwoUsers (fun _ => [1, 2])
        (({} : ConsolidationSettings).mode (twoUsers.since 0) (twoUsers.cycleCount + 1))).any
          (fun v => v.removed.scope = .private ∧ v.removed.userId ≠ v.similar.userId) = true := by decide +kernel
    obtain ⟨v, hv, hne⟩ := List.any_eq_true.mp hcross
    obtain ⟨hprivate, hne⟩ := of_decide_eq_true hne
    exact hne ((h v hv).private hprivate)

end Server
end Amind
