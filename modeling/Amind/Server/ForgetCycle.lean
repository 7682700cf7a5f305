/-
# Forgetting cycles

A cycle scans the cached records of every agent, scores those of its sample
that are alive, and looks up each memory whose score reaches the decay
threshold, to log it. The lookup is `get`, which counts an access and may move
the record up a tier. So a cycle in shadow mode, which removes nothing, changes
the records it logs, and with them the scores of later cycles.

`shadow_readOnly` says that cycles leave every record, every index and every
later score as they are if none of the scores reaches the threshold, and, with
fewer than `2 ^ 32` cached records, only then.
-/
import Amind.Forget.ForgetEngine
import Amind.Memory.Enumerate
import Amind.Observability.MemoryEvent
import Amind.Server.AgentStores

namespace Amind
namespace Server

open Amind.Core Amind.Memory Amind.Forget Amind.Observability
open Run (run Along)

/-- The engine with its forgetting. `hash` is the hash of ids by which records
are sampled; appending an event to the log may throw. -/
structure Gc (F : Type) [FloatOps F] where
  engine : Engine F
  config : ForgetConfig F
  hash : UInt64 → UInt64
  appends : MemoryEvent → Bool
  events : List MemoryEvent

/-- The readings of the clocks in one cycle: for the scan, for each lookup, and
in milliseconds. -/
structure Sweep where
  now : UInt32
  reads : ℕ → UInt32
  nowMs : UInt64

structure ForgetCycleResult where
  evaluated : ℕ
  logged : ℕ
  actioned : ℕ
  deriving DecidableEq, Repr

/-! ### One cycle -/

section Cycle

variable {F : Type} [FloatOps F]

def stdMin (a b : F) : F := if b < a then b else a

def stdMax (a b : F) : F := if a < b then b else a

def tierStalenessMultiplier : MemoryTier → F
  | .working => 1.0
  | .shortTerm => 2.0
  | .longTerm => 4.0

def forgetSignals (cfg : ForgetConfig F) (now : UInt32) (r : MemoryRecord F) : ForgetSignals F :=
  let hoursSinceAccess := ofUInt32 (now - r.lastAccessed) / 3600.0
  let effectiveStale := cfg.staleHours * tierStalenessMultiplier r.tier
  { staleness := stdMin 1.0 (hoursSinceAccess / effectiveStale)
    lowAccess := stdMax 0.0 (1.0 - log (1.0 + ofUInt32 r.accessCount) / 5.0)
    lowImportance := 1.0 - r.importance
    conflictPenalty := if r.confidenceLevel = .conflicted then 1.0 else 0.0
    verifiedBonus := if r.confidenceLevel = .verified then 1.0 else 0.0 }

namespace Gc

variable (g : Gc F)

/-- The record is alive and in the sample. -/
def sampled (r : MemoryRecord F) : Bool :=
  r.isAlive && decide (g.hash r.memoryId % 100 < toUInt64 (g.config.sampleRatio * 100.0))

def batch (now : UInt32) : List (String × UInt64 × ForgetSignals F) :=
  g.engine.agents.flatMap fun a => ((g.engine.memory a).scanAll.filter g.sampled).map fun r =>
    (a, r.memoryId, forgetSignals g.config now r)

/-- The store an id is looked up in: the last one it was scanned in. -/
def idToStore (now : UInt32) (id : UInt64) : Option String :=
  ((g.batch now).reverse.find? (·.2.1 = id)).map (·.1)

def evaluations (now : UInt32) : List (GcEvaluation F) := runCycle g.config ((g.batch now).map (·.2))

/-- Replace the store of an agent. -/
def setStore (a : String) (s : MemoryStore F) : Gc F :=
  { g with engine := { g.engine with memory := Function.update g.engine.memory a s } }

end Gc

def gcKind : Decision → EventKind
  | .decay => .gcDecay
  | .archive => .gcArchive
  | .tombstone => .gcTombstone
  | _ => .gcDecay

/-- The event that is logged for an evaluation, with the record it looked up. -/
def gcEvent (c : Sweep) (shadow removes : Bool) (e : GcEvaluation F) (r : Option (MemoryRecord F)) : MemoryEvent :=
  let preview := r.elim [] fun r => truncateUtf8 r.content 200
  let before := r.elim .active (·.phase)
  let after := if removes then .tombstone else before
  { memoryId := e.memoryId
    agentId := r.elim [] (·.agentId)
    traceId := c.nowMs
    timestampMs := c.nowMs
    kind := gcKind e.recommendedAction
    summary := if preview = [] then truncateUtf8 e.reason 80 else preview
    attrs :=
      [("after_state", (phaseToString after).val), ("before_state", (phaseToString before).val),
        ("forget_score", toText e.forgetScore), ("gc_worker_id", Utf8.bytes "main"), ("reason", e.reason),
        ("shadow", if shadow then Utf8.bytes "yes" else Utf8.bytes "no")] }

/-- Go through the evaluations. The result is `none` if the log threw. -/
def sweepAll (c : Sweep) (idToStore : UInt64 → Option String) :
    List (GcEvaluation F) → Gc F → ForgetCycleResult → Gc F × Option ForgetCycleResult
  | [], g, out => (g, some out)
  | e :: es, g, out =>
    if e.forgetScore < g.config.decayThreshold then sweepAll c idToStore es g out
    else
      match idToStore e.memoryId with
      | none => sweepAll c idToStore es g out
      | some a =>
        let got := (g.engine.memory a).get e.memoryId (c.reads out.logged)
        let removes := !g.config.shadowMode && decide (e.recommendedAction = .tombstone)
        let g := g.setStore a (if removes then (got.1.remove e.memoryId).1 else got.1)
        let ev := gcEvent c g.config.shadowMode removes e got.2.toOption
        if g.appends ev then
          sweepAll c idToStore es { g with events := ev :: g.events }
            { out with logged := out.logged + 1, actioned := if removes then out.actioned + 1 else out.actioned }
        else (g, none)

def runForgetCycleOnce (g : Gc F) (c : Sweep) : Gc F × Option ForgetCycleResult :=
  if g.batch c.now = [] then (g, some ⟨0, 0, 0⟩)
  else sweepAll c (g.idToStore c.now) (g.evaluations c.now) g ⟨(g.evaluations c.now).length, 0, 0⟩

/-- One cycle after another. -/
def forgetCycle (g : Gc F) (c : Sweep) : Gc F := (runForgetCycleOnce g c).1

/-- The records, the indexes and all later scores are as before. -/
structure Unchanged (g g' : Gc F) : Prop where
  records : ∀ a ∈ g.engine.agents, ∀ id, (g'.engine.memory a).load id = (g.engine.memory a).load id
  index : ∀ a ∈ g.engine.agents, (g'.engine.memory a).hnsw = (g.engine.memory a).hnsw
  scores : ∀ now, g'.evaluations now = g.evaluations now

/-- No record that the cycle scans has a score that reaches the threshold. -/
def Quiet (g : Gc F) (c : Sweep) : Prop :=
  ∀ a ∈ g.engine.agents, ∀ r ∈ (g.engine.memory a).scanAll, g.sampled r = true →
    computeForgetScore g.config (forgetSignals g.config c.now r) < g.config.decayThreshold

instance (g : Gc F) (c : Sweep) : Decidable (Quiet g c) :=
  inferInstanceAs (Decidable (∀ a ∈ g.engine.agents, ∀ r ∈ (g.engine.memory a).scanAll, g.sampled r = true →
    computeForgetScore g.config (forgetSignals g.config c.now r) < g.config.decayThreshold))

end Cycle

/-! ### What a cycle looks up -/

section Steps

variable {F : Type} [FloatOps F] {g : Gc F} {c : Sweep}

theorem mem_batch {now : UInt32} {b : String × UInt64 × ForgetSignals F} : b ∈ g.batch now ↔
    ∃ a ∈ g.engine.agents, ∃ r ∈ (g.engine.memory a).scanAll, g.sampled r = true ∧
      (a, r.memoryId, forgetSignals g.config now r) = b := by
  simp [Gc.batch, and_assoc]

theorem mem_evaluations {now : UInt32} {e : GcEvaluation F} : e ∈ g.evaluations now ↔
    ∃ a ∈ g.engine.agents, ∃ r ∈ (g.engine.memory a).scanAll, g.sampled r = true ∧
      evaluate g.config r.memoryId (forgetSignals g.config now r) = e := by
  rw [Gc.evaluations, mem_runCycle]
  constructor
  · rintro ⟨b, hb, rfl⟩
    obtain ⟨b', hb', rfl⟩ := List.mem_map.mp hb
    obtain ⟨a, ha, r, hr, hs, rfl⟩ := mem_batch.mp hb'
    exact ⟨a, ha, r, hr, hs, rfl⟩
  · rintro ⟨a, ha, r, hr, hs, rfl⟩
    exact ⟨_, List.mem_map.mpr ⟨_, mem_batch.mpr ⟨a, ha, r, hr, hs, rfl⟩, rfl⟩, rfl⟩

theorem quiet_iff : Quiet g c ↔ ∀ e ∈ g.evaluations c.now, e.forgetScore < g.config.decayThreshold := by
  constructor
  · intro h e he
    obtain ⟨a, ha, r, hr, hs, rfl⟩ := mem_evaluations.mp he
    rw [forgetScore_evaluate]
    exact h a ha r hr hs
  · intro h a ha r hr hs
    have he := h _ (mem_evaluations.mpr ⟨a, ha, r, hr, hs, rfl⟩)
    rwa [forgetScore_evaluate] at he

theorem sweepAll_quiet (idToStore : UInt64 → Option String) : ∀ (es : List (GcEvaluation F)) (out : ForgetCycleResult),
    (∀ e ∈ es, e.forgetScore < g.config.decayThreshold) → sweepAll c idToStore es g out = (g, some out)
  | [], _, _ => rfl
  | e :: es, out, h => by
    rw [sweepAll, if_pos (h e List.mem_cons_self)]
    exact sweepAll_quiet idToStore es out fun e' he => h e' (List.mem_cons_of_mem _ he)

/-- A quiet cycle does nothing. -/
theorem forgetCycle_quiet (h : Quiet g c) : forgetCycle g c = g := by
  unfold forgetCycle runForgetCycleOnce
  split
  · rfl
  · rw [sweepAll_quiet _ _ _ (quiet_iff.mp h)]

@[simp] theorem accessCount_tryPromote (config : Config F) (r : MemoryRecord F) :
    (MemoryStore.tryPromote config r).accessCount = r.accessCount := by
  unfold MemoryStore.tryPromote
  split
  · split <;> rfl
  · split <;> rfl
  · rfl

/-- One lookup in a store leaves the records of the others, and counts an access
of its own. -/
theorem load_setStore_get (g : Gc F) (a b : String) (i id : UInt64) (now : UInt32) {r : MemoryRecord F}
    (h : (g.engine.memory a).load id = some r) :
    ∃ r', ((g.setStore b ((g.engine.memory b).get i now).1).engine.memory a).load id = some r' ∧
      r'.accessCount = r.accessCount + if a = b ∧ id = i then 1 else 0 := by
  unfold Gc.setStore
  dsimp only
  by_cases hb : a = b
  · subst hb
    rw [Function.update_self, load_get]
    by_cases hi : id = i
    · subst hi
      rw [if_pos rfl, if_pos ⟨rfl, rfl⟩, h]
      exact ⟨_, rfl, accessCount_tryPromote _ _⟩
    · rw [if_neg hi, if_neg fun he => hi he.2]
      exact ⟨r, h, (UInt32.add_zero _).symm⟩
  · rw [Function.update_of_ne hb, if_neg fun he => hb he.1]
    exact ⟨r, h, (UInt32.add_zero _).symm⟩

/-- An evaluation that reaches the threshold is looked up, in shadow mode with no
other change of the stores, and the cycle goes on unless the log throws. -/
theorem sweepAll_shadow {idToStore : UInt64 → Option String} {e : GcEvaluation F} {b : String}
    (es : List (GcEvaluation F)) (out : ForgetCycleResult) (hs : g.config.shadowMode = true)
    (hscore : ¬ e.forgetScore < g.config.decayThreshold) (hb : idToStore e.memoryId = some b) :
    ∃ g₁ : Gc F, g₁.engine = (g.setStore b ((g.engine.memory b).get e.memoryId (c.reads out.logged)).1).engine ∧
      g₁.config = g.config ∧
      ((∃ out₁, sweepAll c idToStore (e :: es) g out = sweepAll c idToStore es g₁ out₁) ∨
        (sweepAll c idToStore (e :: es) g out).1 = g₁) := by
  rw [sweepAll, if_neg hscore, hb]
  dsimp only
  rw [hs]
  simp only [Bool.not_true, Bool.false_and, Bool.false_eq_true, if_false]
  split
  · refine ⟨_, ?_, ?_, .inl ⟨_, rfl⟩⟩ <;> rfl
  · refine ⟨_, ?_, ?_, .inr rfl⟩ <;> rfl

/-- In shadow mode a record's access count goes up by at most one for each
evaluation. -/
theorem accessCount_sweepAll {idToStore : UInt64 → Option String} {a : String} {id : UInt64} :
    ∀ (es : List (GcEvaluation F)) (g : Gc F) (out : ForgetCycleResult) {r : MemoryRecord F},
      g.config.shadowMode = true → (g.engine.memory a).load id = some r →
      ∃ r' n, ((sweepAll c idToStore es g out).1.engine.memory a).load id = some r' ∧ n ≤ es.length ∧
        r'.accessCount = r.accessCount + UInt32.ofNat n
  | [], _, _, r, _, h => ⟨r, 0, h, Nat.le_refl 0, (UInt32.add_zero _).symm⟩
  | e :: es, g, out, r, hs, h => by
    have hskip : ∃ r' n, ((sweepAll c idToStore es g out).1.engine.memory a).load id = some r' ∧
        n ≤ (e :: es).length ∧ r'.accessCount = r.accessCount + UInt32.ofNat n := by
      obtain ⟨r', n, hl, hn, hc⟩ := accessCount_sweepAll es g out hs h
      exact ⟨r', n, hl, hn.trans (Nat.le_succ _), hc⟩
    by_cases hscore : e.forgetScore < g.config.decayThreshold
    · rw [sweepAll, if_pos hscore]
      exact hskip
    · cases hb : idToStore e.memoryId with
      | none =>
        rw [sweepAll, if_neg hscore, hb]
        exact hskip
      | some b =>
        obtain ⟨r₁, hl₁, hc₁⟩ := load_setStore_get g a b e.memoryId id (c.reads out.logged) h
        obtain ⟨g₁, hengine, hconfig, hnext⟩ := sweepAll_shadow (c := c) es out hs hscore hb
        rw [← hengine] at hl₁
        rcases hnext with ⟨out₁, hnext⟩ | hnext
        · obtain ⟨r', n, hl, hn, hc⟩ := accessCount_sweepAll es g₁ out₁ (hconfig ▸ hs) hl₁
          rw [hnext]
          refine ⟨r', n + if a = b ∧ id = e.memoryId then 1 else 0, hl, ?_, ?_⟩
          · rw [List.length_cons]
            split <;> omega
          · rw [hc, hc₁]
            split
            · rw [UInt32.ofNat_add, UInt32.add_assoc, UInt32.add_comm 1]
              rfl
            · rw [UInt32.add_zero, Nat.add_zero]
        · rw [hnext]
          refine ⟨r₁, if a = b ∧ id = e.memoryId then 1 else 0, hl₁, ?_, ?_⟩
          · rw [List.length_cons]
            split <;> omega
          · rw [hc₁]
            split <;> rfl

/-- In shadow mode an evaluation that reaches the threshold makes an access
count go up. -/
theorem accessed_sweepAll {idToStore : UInt64 → Option String} :
    ∀ (es : List (GcEvaluation F)) (out : ForgetCycleResult), g.config.shadowMode = true →
      (∀ e ∈ es, ∃ a, idToStore e.memoryId = some a ∧ ∃ r, (g.engine.memory a).load e.memoryId = some r) →
      (∃ e ∈ es, ¬ e.forgetScore < g.config.decayThreshold) →
      ∃ e ∈ es, ∃ a, idToStore e.memoryId = some a ∧ ∃ r r' n, (g.engine.memory a).load e.memoryId = some r ∧
        ((sweepAll c idToStore es g out).1.engine.memory a).load e.memoryId = some r' ∧
        1 ≤ n ∧ n ≤ es.length ∧ r'.accessCount = r.accessCount + UInt32.ofNat n
  | [], _, _, _, h => by
    obtain ⟨e, he, -⟩ := h
    cases he
  | e :: es, out, hs, hstore, h => by
    by_cases hscore : e.forgetScore < g.config.decayThreshold
    · have hrest : ∃ e' ∈ es, ¬ e'.forgetScore < g.config.decayThreshold := by
        obtain ⟨e', he', hreach⟩ := h
        rcases List.mem_cons.mp he' with rfl | he'
        · exact absurd hscore hreach
        · exact ⟨e', he', hreach⟩
      rw [sweepAll, if_pos hscore]
      obtain ⟨e', he', a, ha, r, r', n, hl, hl', h₁, hn, hc⟩ := accessed_sweepAll es out hs
        (fun e' he' => hstore e' (List.mem_cons_of_mem _ he')) hrest
      exact ⟨e', List.mem_cons_of_mem _ he', a, ha, r, r', n, hl, hl', h₁, hn.trans (Nat.le_succ _), hc⟩
    · obtain ⟨a, ha, r, hl⟩ := hstore e List.mem_cons_self
      obtain ⟨r₁, hl₁, hc₁⟩ := load_setStore_get g a a e.memoryId e.memoryId (c.reads out.logged) hl
      rw [if_pos ⟨rfl, rfl⟩] at hc₁
      obtain ⟨g₁, hengine, hconfig, hnext⟩ := sweepAll_shadow (c := c) es out hs hscore ha
      rw [← hengine] at hl₁
      refine ⟨e, List.mem_cons_self, a, ha, r, ?_⟩
      rcases hnext with ⟨out₁, hnext⟩ | hnext
      · obtain ⟨r', n, hl', hn, hc⟩ := accessCount_sweepAll es g₁ out₁ (hconfig ▸ hs) hl₁
        rw [hnext]
        refine ⟨r', n + 1, hl, hl', Nat.le_add_left 1 n, Nat.succ_le_succ hn, ?_⟩
        rw [hc, hc₁, UInt32.ofNat_add, UInt32.add_assoc, UInt32.add_comm 1]
        rfl
      · rw [hnext]
        exact ⟨r₁, 1, hl, hl₁, Nat.le_refl 1, Nat.succ_le_succ (Nat.zero_le _), hc₁⟩

/-- An evaluated memory is looked up in a store it was scanned in. -/
theorem idToStore_evaluations {now : UInt32} {e : GcEvaluation F} (he : e ∈ g.evaluations now) :
    ∃ a ∈ g.engine.agents, g.idToStore now e.memoryId = some a ∧
      ∃ r ∈ (g.engine.memory a).scanAll, r.memoryId = e.memoryId := by
  obtain ⟨a, ha, r, hr, hs, rfl⟩ := mem_evaluations.mp he
  have hb : (a, r.memoryId, forgetSignals g.config now r) ∈ (g.batch now).reverse :=
    List.mem_reverse.mpr (mem_batch.mpr ⟨a, ha, r, hr, hs, rfl⟩)
  rw [memoryId_evaluate, Gc.idToStore]
  cases hf : (g.batch now).reverse.find? (·.2.1 = r.memoryId) with
  | none => exact absurd rfl (of_decide_eq_false (Bool.eq_false_iff.mpr (List.find?_eq_none.mp hf _ hb)))
  | some b =>
    obtain ⟨a', ha', r', hr', -, rfl⟩ := mem_batch.mp (List.mem_reverse.mp (List.mem_of_find?_eq_some hf))
    have hid := List.find?_some hf
    exact ⟨a', ha', rfl, r', hr', of_decide_eq_true hid⟩

theorem length_evaluations_le (now : UInt32) :
    (g.evaluations now).length ≤ (g.engine.agents.flatMap fun a => (g.engine.memory a).scanAll).length := by
  rw [Gc.evaluations, length_runCycle, List.length_map, Gc.batch, List.length_flatMap, List.length_flatMap]
  refine List.sum_le_sum fun a _ => ?_
  rw [List.length_map]
  exact List.length_filter_le _ _

/-- A cycle in shadow mode that leaves the records as they are was quiet. -/
theorem quiet_of_unchanged (hs : g.config.shadowMode = true) (hown : ∀ a ∈ g.engine.agents, Own (g.engine.memory a))
    (hfew : (g.engine.agents.flatMap fun a => (g.engine.memory a).scanAll).length < 2 ^ 32)
    (h : Unchanged g (forgetCycle g c)) : Quiet g c := by
  rw [quiet_iff]
  by_contra hq
  obtain ⟨e₀, he₀, hreach⟩ : ∃ e ∈ g.evaluations c.now, ¬ e.forgetScore < g.config.decayThreshold := by
    by_contra hnone
    exact hq fun e he => by_contra fun hlt => hnone ⟨e, he, hlt⟩
  have hbatch : g.batch c.now ≠ [] := by
    intro hempty
    rw [Gc.evaluations, hempty] at he₀
    cases he₀
  have hstore : ∀ e ∈ g.evaluations c.now, ∃ a, g.idToStore c.now e.memoryId = some a ∧
      ∃ r, (g.engine.memory a).load e.memoryId = some r := by
    intro e he
    obtain ⟨a, ha, hid, r, hr, hrid⟩ := idToStore_evaluations he
    obtain ⟨i, hi⟩ := mem_scanAll.mp hr
    have hkey : r.memoryId = i := (hown a ha).cached i r hi
    exact ⟨a, hid, r, MemoryStore.load_cached (hrid ▸ hkey ▸ hi)⟩
  obtain ⟨e, he, a, ha, r, r', n, hl, hl', h₁, hn, hc⟩ :=
    accessed_sweepAll (c := c) (g.evaluations c.now) ⟨(g.evaluations c.now).length, 0, 0⟩ hs hstore ⟨e₀, he₀, hreach⟩
  have hrun : forgetCycle g c = (sweepAll c (g.idToStore c.now) (g.evaluations c.now) g
      ⟨(g.evaluations c.now).length, 0, 0⟩).1 := by
    rw [forgetCycle, runForgetCycleOnce, if_neg hbatch]
  obtain ⟨a', ha', hid, -⟩ := idToStore_evaluations he
  have haeq : a' = a := Option.some.inj (hid.symm.trans ha)
  have hsame := h.records a (haeq ▸ ha') e.memoryId
  rw [hrun, hl', hl] at hsame
  -- the count went up by less than a full turn
  have hcount : r.accessCount = r.accessCount + UInt32.ofNat n :=
    (congrArg (·.accessCount) (Option.some.inj hsame)).symm.trans hc
  have hlt : n < 2 ^ 32 := (hn.trans (length_evaluations_le c.now)).trans_lt hfew
  have hnat := congrArg UInt32.toNat hcount
  rw [UInt32.toNat_add, UInt32.toNat_ofNat'] at hnat
  have hr := r.accessCount.toNat_lt
  omega

theorem run_quiet : ∀ (cycles : List Sweep), (∀ c ∈ cycles, Quiet g c) → run forgetCycle g cycles = g
  | [], _ => rfl
  | c :: cycles, h => by
    rw [Run.run_cons, forgetCycle_quiet (h c List.mem_cons_self)]
    exact run_quiet cycles fun c' hc => h c' (List.mem_cons_of_mem _ hc)

/-- **Shadow mode is read-only exactly if nothing is logged.** Any number of
cycles leave the records, the indexes and all later scores as they are if no
scanned record has a score that reaches the threshold at the time of one of
them; and only then, if every record is cached under its own id and there are
fewer than `2 ^ 32` of them, so that no access count can come round. -/
theorem shadow_readOnly (g : Gc F) (hs : g.config.shadowMode = true) (cycles : List Sweep) :
    ((∀ c ∈ cycles, Quiet g c) → ∀ before, before <+: cycles → Unchanged g (run forgetCycle g before)) ∧
    ((∀ a ∈ g.engine.agents, Own (g.engine.memory a)) →
      (g.engine.agents.flatMap fun a => (g.engine.memory a).scanAll).length < 2 ^ 32 →
      (∀ before, before <+: cycles → Unchanged g (run forgetCycle g before)) → ∀ c ∈ cycles, Quiet g c) := by
  constructor
  · rintro hq before ⟨rest, rfl⟩
    rw [run_quiet before fun c hc => hq c (List.mem_append_left _ hc)]
    exact ⟨fun _ _ _ => rfl, fun _ _ => rfl, fun _ => rfl⟩
  · intro hown hfew h
    induction cycles using List.reverseRecOn with
    | nil => exact fun _ hc => absurd hc List.not_mem_nil
    | append_singleton cycles c ih =>
      have hq := ih fun before hb => h before (hb.trans (List.prefix_append cycles [c]))
      intro c' hc'
      rcases List.mem_append.mp hc' with hc' | hc'
      · exact hq c' hc'
      · rw [List.mem_singleton.mp hc']
        have hlast := h _ (List.prefix_refl _)
        rw [Run.run_concat, run_quiet cycles hq] at hlast
        exact quiet_of_unchanged hs hown hfew hlast

end Steps

/-! ### One record -/

/-- An engine in shadow mode with one memory of this importance. -/
def oneMemory (importance : ℚ) : Gc ℚ where
  engine :=
    { agents := ["default"]
      memory := fun _ => (MemoryStore.new ⟨1, 3, 0.6, 10, 0.7, 100, .whole⟩).storeRecord
        { MemoryRecord.zero with memoryId := 1, importance := importance, createdAt := 1000, lastAccessed := 1000 }
      storeConfig := ⟨1, 3, 0.6, 10, 0.7, 100, .whole⟩
      dirOf := fun a => [Utf8.bytes a]
      agentAutoCreate := true
      maxAgents := 10 }
  config := {}
  hash := id
  appends := fun _ => true
  events := []

/-- Two cycles, an hour apart. -/
def hourly : List Sweep := [⟨1000, fun _ => 1000, 1000000⟩, ⟨4600, fun _ => 4600, 4600000⟩]

theorem shadow_readOnly_important : Unchanged (oneMemory 1) (run forgetCycle (oneMemory 1) hourly) :=
  (shadow_readOnly (oneMemory 1) rfl hourly).1 (by decide +kernel) hourly (List.prefix_refl _)

/-- An unimportant memory is logged, and accessed. -/
theorem shadow_accesses : (oneMemory 0).config.shadowMode = true ∧
    ¬ Unchanged (oneMemory 0) (run forgetCycle (oneMemory 0) hourly) := by
  refine ⟨rfl, fun h => ?_⟩
  have hcounts : ((((run forgetCycle (oneMemory 0) hourly).engine.memory "default").load 1).map (·.accessCount)) ≠
      ((((oneMemory 0).engine.memory "default").load 1).map (·.accessCount)) := by decide +kernel
  exact hcounts (congrArg _ (h.records "default" (by decide) 1))

end Server
end Amind
