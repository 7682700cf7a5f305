/-
# What a forgetting cycle logs

A cycle logs every memory it looks up, with the first bytes of its content and the name
of its agent, and a text that cannot be written ends the cycle there. The log in a cycle
may be any; what it is given does not depend on it (`isSome_runForgetCycleOnce`).

`serialisable_toLog` says when all of it can be written: when the names of the agents
can. A record that was removed has what comes back of its texts from the store.

Key definitions: `Gc.toLog`, `Gc.WellNamed`, `Swept`.
-/
import Amind.Observability.Serialisation
import Amind.Server.ForgetCycle

namespace Amind
namespace Server

open Amind.Core Amind.Memory Amind.Forget Amind.Observability WireFormat

/-! ### What a cycle logs -/

section Sweeping

variable {F : Type} [FloatOps F]

namespace Gc

variable (g : Gc F) (c : Sweep)

/-- What a cycle has to log, in its order. -/
def toLog : List MemoryEvent :=
  (runForgetCycleOnce { g with appends := fun _ => true, events := [] } c).1.events.reverse

def removes (e : GcEvaluation F) : Bool := !g.config.shadowMode && decide (e.recommendedAction = .tombstone)

/-- The store `a` once an evaluation has been dealt with, as the `n`th. -/
def swept (a : String) (e : GcEvaluation F) (n : ℕ) : MemoryStore F :=
  if g.removes e then (((g.engine.memory a).get e.memoryId (c.reads n)).1.remove e.memoryId).1
  else ((g.engine.memory a).get e.memoryId (c.reads n)).1

/-- What is logged of it. -/
def eventOf (a : String) (e : GcEvaluation F) (n : ℕ) : MemoryEvent :=
  gcEvent c g.config.shadowMode (g.removes e) e ((g.engine.memory a).get e.memoryId (c.reads n)).2.toOption

/-- The name of a record's agent, or what comes back of it after the record was removed. -/
def nameOf (removed : List UInt64) (r : MemoryRecord F) (id : UInt64) : Text :=
  if id ∈ removed then r.agentId.take MAX_SIZE else r.agentId

/-- The records that are looked up for these evaluations have well-formed names of agents,
as they are once those `removed` are. -/
def WellNamed : List UInt64 → List (GcEvaluation F) → Prop
  | _, [] => True
  | removed, e :: es =>
    if e.forgetScore < g.config.decayThreshold then WellNamed removed es
    else
      match g.idToStore c.now e.memoryId with
      | none => WellNamed removed es
      | some a =>
        (∀ r, (g.engine.memory a).load e.memoryId = some r → Utf8.valid (nameOf removed r e.memoryId) = true) ∧
          WellNamed (if g.removes e then e.memoryId :: removed else removed) es

end Gc

variable {g g₀ : Gc F} {c : Sweep}

theorem toLog_eq (g : Gc F) (c : Sweep) : g.toLog c = if g.batch c.now = [] then [] else
    (sweepAll c (g.idToStore c.now) (g.evaluations c.now) { g with appends := fun _ => true, events := [] }
      ⟨(g.evaluations c.now).length, 0, 0⟩).1.events.reverse := by
  have hbatch : Gc.batch { g with appends := fun _ => true, events := [] } c.now = g.batch c.now := rfl
  rw [Gc.toLog, runForgetCycleOnce, hbatch]
  split <;> rfl

/-- What is done for an evaluation that reaches the threshold. -/
theorem sweepAll_logged {idToStore : UInt64 → Option String} {e : GcEvaluation F} {a : String}
    (es : List (GcEvaluation F)) (g : Gc F) (out : ForgetCycleResult)
    (hscore : ¬ e.forgetScore < g.config.decayThreshold)
    (ha : idToStore e.memoryId = some a) : sweepAll c idToStore (e :: es) g out =
      if g.appends (g.eventOf c a e out.logged) then
        sweepAll c idToStore es
          { g.setStore a (g.swept c a e out.logged) with events := g.eventOf c a e out.logged :: g.events }
          { out with
            logged := out.logged + 1
            actioned := if g.removes e then out.actioned + 1 else out.actioned }
      else (g.setStore a (g.swept c a e out.logged), none) := by
  rw [sweepAll, if_neg hscore, ha]
  rfl

/-- A sweep gets through a log if that takes everything the sweep has for it. -/
theorem isSome_sweepAll {idToStore : UInt64 → Option String} :
    ∀ (es : List (GcEvaluation F)) (g : Gc F) (evs : List MemoryEvent) (out : ForgetCycleResult),
      ∃ new, (sweepAll c idToStore es { g with appends := fun _ => true, events := evs } out).1.events = new ++ evs ∧
        ((sweepAll c idToStore es g out).2.isSome = true ↔ ∀ ev ∈ new, g.appends ev = true)
  | [], _, _, _ => ⟨[], rfl, by simp [sweepAll]⟩
  | e :: es, g, evs, out => by
    by_cases hscore : e.forgetScore < g.config.decayThreshold
    · rw [sweepAll, sweepAll, if_pos hscore, if_pos hscore]
      exact isSome_sweepAll es g evs out
    · cases ha : idToStore e.memoryId with
      | none =>
        rw [sweepAll, sweepAll, if_neg hscore, if_neg hscore, ha]
        exact isSome_sweepAll es g evs out
      | some a =>
        rw [sweepAll_logged es g out hscore ha, sweepAll_logged es { g with appends := _, events := evs } out hscore ha,
          if_pos rfl]
        obtain ⟨new, hnew, hiff⟩ := isSome_sweepAll es
          { g.setStore a (g.swept c a e out.logged) with events := g.eventOf c a e out.logged :: g.events }
          (g.eventOf c a e out.logged :: evs)
          { out with
            logged := out.logged + 1
            actioned := if g.removes e then out.actioned + 1 else out.actioned }
        refine ⟨new ++ [g.eventOf c a e out.logged], hnew.trans (List.append_cons ..), ?_⟩
        rw [List.forall_mem_append, List.forall_mem_singleton]
        split
        · next hev =>
          rw [hiff]
          exact ⟨fun h => ⟨h, hev⟩, fun h => h.1⟩
        · next hev => simp [hev]

/-! ### The stores under a sweep -/

section Stores

/-- What is written of a text are its first bytes. -/
def CutsTexts (w : Wire F) : Prop :=
  ∀ b, (w.clip b).content = b.content.take MAX_SIZE ∧ (w.clip b).agentId = b.agentId.take MAX_SIZE

omit [FloatOps F] in
/-- Records are written so. -/
theorem cutsTexts_wireOf [Zero F] {D : Type} {nf : Numbers F D} (hnf : nf.Lawful) : CutsTexts (wireOf nf hnf) := by
  intro b
  obtain ⟨hcontent, -, hagent⟩ := clip_fields hnf b
  exact ⟨hcontent, hagent⟩

/-- The texts of a record, as they come back if it is removed. -/
def CutIf (removed : Bool) (r r' : MemoryRecord F) : Prop :=
  r'.content = (if removed then r.content.take MAX_SIZE else r.content) ∧
    r'.agentId = if removed then r.agentId.take MAX_SIZE else r.agentId

theorem texts_looked (config : Config F) (r : MemoryRecord F) (now : UInt32) :
    CutIf false r (MemoryStore.tryPromote config (MemoryStore.touch r now)) := by
  unfold MemoryStore.tryPromote
  split
  · split <;> exact ⟨rfl, rfl⟩
  · split <;> exact ⟨rfl, rfl⟩
  · exact ⟨rfl, rfl⟩

omit [FloatOps F] in
theorem texts_removed {w : Wire F} (hw : CutsTexts w) {r r' : MemoryRecord F} (h : CutIf false r r') :
    CutIf true r (r'.markTombstone.wire w) := by
  obtain ⟨hcontent, hagent⟩ := hw r'.markTombstone.toBody
  exact ⟨hcontent.trans (congrArg (List.take MAX_SIZE) h.1), hagent.trans (congrArg (List.take MAX_SIZE) h.2)⟩

theorem config_get (s : MemoryStore F) (id : UInt64) (now : UInt32) : (s.get id now).1.config = s.config := by
  rcases get_cases s id now with he | ⟨q, -, -, he⟩
  · rw [he]
    exact MemoryStore.config_exec s _
  · rw [he]
    rfl

variable {a : String} {e : GcEvaluation F} {n : ℕ}

theorem config_swept : (g.swept c a e n).config = (g.engine.memory a).config := by
  unfold Gc.swept
  split
  · exact (MemoryStore.config_exec _ (.remove e.memoryId)).trans (config_get ..)
  · exact config_get ..

/-- The record that was looked up keeps its texts, unless it was removed; the others are as
they were. -/
theorem load_swept (hw : CutsTexts (g.engine.memory a).config.wire) :
    ∃ f : MemoryRecord F → MemoryRecord F, (∀ r, CutIf (g.removes e) r (f r)) ∧ ∀ id, (g.swept c a e n).load id =
      if id = e.memoryId then ((g.engine.memory a).load e.memoryId).map f else (g.engine.memory a).load id := by
  have hlooked := texts_looked (F := F) (g.engine.memory a).config
  unfold Gc.swept
  cases g.removes e with
  | false =>
    exact ⟨fun r => MemoryStore.tryPromote (g.engine.memory a).config (MemoryStore.touch r (c.reads n)),
      fun r => hlooked r _, fun id => load_get ..⟩
  | true =>
    refine ⟨fun r => (MemoryStore.tryPromote (g.engine.memory a).config
      (MemoryStore.touch r (c.reads n))).markTombstone.wire (g.engine.memory a).config.wire,
        fun r => texts_removed hw (hlooked r _), fun id => ?_⟩
    by_cases hid : id = e.memoryId
    · rw [if_pos rfl, if_pos hid, hid, MemoryStore.load_remove_self, load_get, if_pos rfl, config_get, Option.map_map]
      rfl
    · rw [if_pos rfl, if_neg hid, MemoryStore.load_remove_other hid, load_get, if_neg hid]

omit [FloatOps F] in
theorem nameOf_self (removed : List UInt64) (removes : Bool) (r : MemoryRecord F) (id : UInt64) :
    (if removes then (Gc.nameOf removed r id).take MAX_SIZE else Gc.nameOf removed r id) =
      Gc.nameOf (if removes then id :: removed else removed) r id := by
  unfold Gc.nameOf
  cases removes with
  | false => rfl
  | true =>
    rw [if_pos rfl, if_pos rfl, if_pos List.mem_cons_self]
    split
    · rw [List.take_take, Nat.min_self]
    · rfl

omit [FloatOps F] in
theorem nameOf_other {id i : UInt64} (h : i ≠ id) (removed : List UInt64) (removes : Bool) (r : MemoryRecord F) :
    Gc.nameOf (if removes then id :: removed else removed) r i = Gc.nameOf removed r i := by
  unfold Gc.nameOf
  cases removes <;> simp [h]

/-- The stores in the midst of a sweep from `g₀`, after those ids were `removed`. -/
structure Swept (g₀ : Gc F) (c : Sweep) (removed : List UInt64) (g : Gc F) : Prop where
  config : g.config = g₀.config
  wire : ∀ a, CutsTexts (g.engine.memory a).config.wire
  contents : ∀ a id r, (g.engine.memory a).load id = some r → Kept r.content
  names : ∀ a id, g₀.idToStore c.now id = some a → ((g.engine.memory a).load id).map (·.agentId) =
    ((g₀.engine.memory a).load id).map fun r => Gc.nameOf removed r id

theorem Swept.start (hw : ∀ a, CutsTexts (g.engine.memory a).config.wire)
    (h : ∀ a id r, (g.engine.memory a).load id = some r → Kept r.content) : Swept g c [] g where
  config := rfl
  wire := hw
  contents := h
  names a id _ := by simp [Gc.nameOf]

/-- One evaluation. -/
theorem Swept.step {removed : List UInt64} (h : Swept g₀ c removed g) (ha : g₀.idToStore c.now e.memoryId = some a)
    (evs : List MemoryEvent) : Swept g₀ c (if g₀.removes e then e.memoryId :: removed else removed)
      { g.setStore a (g.swept c a e n) with events := evs } := by
  have hremoves : g₀.removes e = g.removes e := by rw [Gc.removes, Gc.removes, h.config]
  obtain ⟨f, hf, hload⟩ := load_swept (c := c) (e := e) (n := n) (h.wire a)
  have hother : ∀ {b}, b ≠ a → (g.setStore a (g.swept c a e n)).engine.memory b = g.engine.memory b :=
    fun hb => Function.update_of_ne hb ..
  have hself : (g.setStore a (g.swept c a e n)).engine.memory a = g.swept c a e n := Function.update_self ..
  refine ⟨h.config, fun b => ?_, fun b id r hr => ?_, fun b id hb => ?_⟩
  · by_cases hb : b = a
    · rw [hb]
      dsimp only
      rw [hself, config_swept]
      exact h.wire a
    · dsimp only
      rw [hother hb]
      exact h.wire b
  · by_cases hb : b = a
    · rw [hb] at hr
      dsimp only at hr
      rw [hself, hload] at hr
      split at hr
      · obtain ⟨r', hr', rfl⟩ := Option.map_eq_some_iff.mp hr
        rw [(hf r').1]
        split
        · exact (h.contents a _ r' hr').take
        · exact h.contents a _ r' hr'
      · exact h.contents a id r hr
    · dsimp only at hr
      rw [hother hb] at hr
      exact h.contents b id r hr
  · have hnames := h.names b id hb
    by_cases hid : id = e.memoryId
    · obtain rfl : b = a := Option.some.inj (hb.symm.trans (hid ▸ ha))
      dsimp only
      have hcut : ∀ r, (f r).agentId = if g.removes e then r.agentId.take MAX_SIZE else r.agentId := fun r => (hf r).2
      rw [hself, hload, if_pos hid, ← hid, hremoves]
      calc (((g.engine.memory b).load id).map f).map (·.agentId)
        _ = (((g.engine.memory b).load id).map (·.agentId)).map
            fun t => if g.removes e then t.take MAX_SIZE else t := by
          simp only [Option.map_map, Function.comp_def, hcut]
        _ = ((g₀.engine.memory b).load id).map fun r =>
            Gc.nameOf (if g.removes e then id :: removed else removed) r id := by
          rw [hnames, Option.map_map]
          exact congrArg (fun k => ((g₀.engine.memory b).load id).map k) (funext fun r => nameOf_self removed _ r id)
    · have hsame : ((g.setStore a (g.swept c a e n)).engine.memory b).load id = (g.engine.memory b).load id := by
        by_cases hb' : b = a
        · rw [hb', hself, hload, if_neg hid]
        · rw [hother hb']
      dsimp only
      rw [hsame, hnames]
      simp only [nameOf_other hid]

theorem valid_reason_evaluate (htext : ∀ x : F, Utf8.valid (toText x) = true) (cfg : ForgetConfig F) (id : UInt64)
    (signals : ForgetSignals F) : Utf8.valid (evaluate cfg id signals).reason = true := by
  have hreached : ∀ x : F, Utf8.valid (reached x) = true := fun x => by
    rw [reached, Utf8.valid_append (Utf8.valid_bytes _), htext]
  unfold evaluate
  dsimp only
  split
  · exact hreached _
  · split
    · exact hreached _
    · split
      · exact hreached _
      · exact Utf8.valid_bytes _

/-- The name of the agent has to be well formed. -/
theorem serialisable_gcEvent (htext : ∀ x : F, Utf8.valid (toText x) = true) {shadow removes : Bool}
    {r : Option (MemoryRecord F)} (h : ∀ r' ∈ r, Kept r'.content) (hreason : Utf8.valid e.reason = true) :
    Serialisable (gcEvent c shadow removes e r) ↔ ∀ t ∈ r.map (·.agentId), Utf8.valid t = true := by
  have hagent : (gcEvent c shadow removes e r).agentId = (r.map (·.agentId)).getD [] := by
    cases r <;> rfl
  constructor
  · intro hs t ht
    have hname := hs.agentId
    rwa [hagent, Option.mem_def.mp ht] at hname
  · intro hname
    refine ⟨?_, ?_, ?_⟩
    · rw [hagent]
      cases ht : r.map (·.agentId) with
      | none => rfl
      | some t => exact hname t ht
    · unfold gcEvent
      dsimp only
      split
      · exact valid_truncateUtf8 hreason 80
      · cases r with
        | none => rfl
        | some r' => exact (h r' rfl).valid_truncateUtf8 (by decide)
    · have hshadow : Utf8.valid (if shadow then Utf8.bytes "yes" else Utf8.bytes "no") = true := by
        split <;> exact Utf8.valid_bytes _
      simp [gcEvent, htext, hreason, hshadow, (phaseToString _).property]

theorem toOption_get (s : MemoryStore F) (id : UInt64) (now : UInt32) : (s.get id now).2.toOption =
    (s.load id).map fun r => MemoryStore.tryPromote s.config (MemoryStore.touch r now) := by
  rw [get_snd]
  cases s.load id <;> rfl

theorem serialisable_sweepAll (htext : ∀ x : F, Utf8.valid (toText x) = true) :
    ∀ {es : List (GcEvaluation F)} {removed : List UInt64} {g : Gc F} (out : ForgetCycleResult),
      (∀ e ∈ es, Utf8.valid e.reason = true) → Swept g₀ c removed g → (∀ ev, g.appends ev = true) →
      ∃ new, (sweepAll c (g₀.idToStore c.now) es g out).1.events = new ++ g.events ∧
        ((∀ ev ∈ new, Serialisable ev) ↔ g₀.WellNamed c removed es)
  | [], _, _, _, _, _, _ => ⟨[], rfl, by simp [Gc.WellNamed]⟩
  | e :: es, removed, g, out, hreasons, h, hg => by
    obtain ⟨hreason, hreasons⟩ := List.forall_mem_cons.mp hreasons
    rw [Gc.WellNamed, ← h.config]
    by_cases hscore : e.forgetScore < g.config.decayThreshold
    · rw [sweepAll, if_pos hscore, if_pos hscore]
      exact serialisable_sweepAll htext out hreasons h hg
    · cases ha : g₀.idToStore c.now e.memoryId with
      | none =>
        rw [sweepAll, if_neg hscore, if_neg hscore, ha]
        exact serialisable_sweepAll htext out hreasons h hg
      | some a =>
        obtain ⟨new, hnew, hiff⟩ := serialisable_sweepAll htext
          { out with
            logged := out.logged + 1
            actioned := if g.removes e then out.actioned + 1 else out.actioned }
          hreasons (h.step (n := out.logged) ha (g.eventOf c a e out.logged :: g.events)) hg
        have hevent : Serialisable (g.eventOf c a e out.logged) ↔ ∀ r, (g₀.engine.memory a).load e.memoryId = some r →
            Utf8.valid (Gc.nameOf removed r e.memoryId) = true := by
          have hname : ∀ r : MemoryRecord F, (MemoryStore.tryPromote (g.engine.memory a).config
              (MemoryStore.touch r (c.reads out.logged))).agentId = r.agentId := fun r => (texts_looked _ r _).2
          have hkept : ∀ r ∈ ((g.engine.memory a).get e.memoryId (c.reads out.logged)).2.toOption, Kept r.content := by
            intro r hr
            rw [toOption_get] at hr
            obtain ⟨r', hr', rfl⟩ := Option.map_eq_some_iff.mp hr
            rw [(texts_looked _ r' _).1]
            exact h.contents a _ r' hr'
          rw [Gc.eventOf, serialisable_gcEvent htext hkept hreason, toOption_get, Option.map_map]
          simp only [Function.comp_def, hname]
          rw [h.names a _ ha]
          simp
        rw [sweepAll_logged es g out hscore ha, if_pos (hg _), if_neg hscore]
        refine ⟨new ++ [g.eventOf c a e out.logged], hnew.trans (List.append_cons ..), ?_⟩
        dsimp only
        rw [List.forall_mem_append, List.forall_mem_singleton, hiff, hevent, and_comm]

variable (g c)

/-- **What can be written of a cycle.** -/
theorem serialisable_toLog (htext : ∀ x : F, Utf8.valid (toText x) = true)
    (hw : ∀ a, CutsTexts (g.engine.memory a).config.wire)
    (h : ∀ a id r, (g.engine.memory a).load id = some r → Kept r.content) :
    (∀ ev ∈ g.toLog c, Serialisable ev) ↔ g.WellNamed c [] (g.evaluations c.now) := by
  rw [toLog_eq]
  by_cases hbatch : g.batch c.now = []
  · have hnone : g.evaluations c.now = [] := by rw [Gc.evaluations, hbatch]; rfl
    rw [if_pos hbatch, hnone]
    simp [Gc.WellNamed]
  · have hreasons : ∀ e ∈ g.evaluations c.now, Utf8.valid e.reason = true := by
      intro e he
      obtain ⟨-, -, -, -, -, rfl⟩ := mem_evaluations.mp he
      exact valid_reason_evaluate htext ..
    have hstart : Swept g c [] { g with appends := fun _ => true, events := [] } :=
      ⟨rfl, hw, h, (Swept.start hw h).names⟩
    obtain ⟨new, hnew, hiff⟩ :=
      serialisable_sweepAll htext ⟨(g.evaluations c.now).length, 0, 0⟩ hreasons hstart fun _ => rfl
    rw [if_neg hbatch, ← hiff, hnew]
    simp

end Stores

/-- A cycle returns if the log takes what the cycle has for it. -/
theorem isSome_runForgetCycleOnce (g : Gc F) (c : Sweep) :
    (runForgetCycleOnce g c).2.isSome = true ↔ ∀ ev ∈ g.toLog c, g.appends ev = true := by
  rw [toLog_eq, runForgetCycleOnce]
  by_cases hbatch : g.batch c.now = []
  · rw [if_pos hbatch, if_pos hbatch]
    simp
  · obtain ⟨new, hnew, hiff⟩ := isSome_sweepAll (c := c) (g.evaluations c.now) g [] ⟨(g.evaluations c.now).length, 0, 0⟩
    rw [if_neg hbatch, if_neg hbatch, hiff, hnew]
    simp

end Sweeping

end Server
end Amind
