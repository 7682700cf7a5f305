/-
# The freshness barrier

Before a recall the pipeline may wait until no refinement of the agent is in
flight. It counts them by agent: up when one is scheduled, down when the guard
in its task goes out of scope, however the task ends, and down when it could not
be queued. The counter is under a lock of its own and the queue under another, so
between a push that failed and the decrement that answers it there is a moment
when the counter is one too high. It is never too low.

Key definitions: `Pipeline.step`, `Pipeline.inFlight`.
Key theorems: `Counted.step`, `pending_eq_inFlight`.
-/
import Amind.Async.TaskQueue
import Amind.Lib.Run
import Mathlib.Data.Int.Basic
import Mathlib.Data.List.Count
import Mathlib.Logic.Function.Basic

namespace Amind
namespace Capture
namespace Barrier

open Amind.Async

/-- A task of the pipeline's second stage. -/
structure RefineTask where
  memoryId : UInt64
  traceId : UInt64
  flightKey : UInt64
  preExtracted : Bool
  deriving DecidableEq, Repr

/-- The tasks of the queue: those of this pipeline, and others. -/
inductive AsyncTask
  | refine (task : RefineTask)
  | other
  deriving DecidableEq, Repr

/-- The pipeline's counters, the queue, and where its refinements are: with a
thread that is pushing, with one whose push failed and who has not taken it back
yet, or with a worker. -/
structure Pipeline where
  nsInFlight : UInt64 → Option ℤ
  queue : TaskQueue AsyncTask
  pushing : List RefineTask
  failed : List RefineTask
  running : List RefineTask

namespace Pipeline

/-- A pipeline at the start, before a queue. -/
def init (queue : TaskQueue AsyncTask) : Pipeline :=
  { nsInFlight := fun _ => none, queue, pushing := [], failed := [], running := [] }

/-- The counter of a key, 0 if there is none. -/
def pending (p : Pipeline) (key : UInt64) : ℤ := (p.nsInFlight key).getD 0

def incrementPending (p : Pipeline) (key : UInt64) : Pipeline :=
  { p with nsInFlight := Function.update p.nsInFlight key (some (p.pending key + 1)) }

def decrementPending (p : Pipeline) (key : UInt64) : Pipeline :=
  match p.nsInFlight key with
  | some n => if 0 < n then { p with nsInFlight := Function.update p.nsInFlight key (some (n - 1)) } else p
  | none => p

/-- What a wait returns at this moment; it goes on waiting if that is nothing.
`timedOut` is whether its time is over. -/
def waitForPendingRefinements (p : Pipeline) (key : UInt64) (timedOut : Bool) : Option Bool :=
  if (p.nsInFlight key).all (· ≤ 0) then some true
  else if timedOut then some false
  else none

/-! ### The steps of the threads -/

/-- What one of the threads does next, under a lock. -/
inductive Op
  /-- A capture counts its task and is about to push it. -/
  | schedule (task : RefineTask)
  /-- A push that is waiting looks at the queue. -/
  | push (task : RefineTask) (timedOut : Bool)
  /-- A thread whose push failed counts its task down. -/
  | takeBack (task : RefineTask)
  | pushOther (timedOut : Bool)
  | pop
  /-- A task ends, by itself or by an exception: its guard goes out of scope. -/
  | finish (task : RefineTask) (threw : Bool)
  | stop

/-- One step. A step that cannot be taken changes nothing. -/
def step (p : Pipeline) : Op → Pipeline
  | .schedule task => { p.incrementPending task.flightKey with pushing := p.pushing ++ [task] }
  | .push task timedOut =>
    if task ∈ p.pushing then
      match p.queue.push (.refine task) timedOut with
      | some (.ok queue) => { p with queue, pushing := p.pushing.erase task }
      | some (.error _) => { p with pushing := p.pushing.erase task, failed := p.failed ++ [task] }
      | none => p
    else p
  | .takeBack task =>
    if task ∈ p.failed then { p.decrementPending task.flightKey with failed := p.failed.erase task } else p
  | .pushOther timedOut =>
    match p.queue.push .other timedOut with
    | some (.ok queue) => { p with queue }
    | _ => p
  | .pop =>
    match p.queue.pop with
    | some (.refine task, queue) => { p with queue, running := p.running ++ [task] }
    | some (.other, queue) => { p with queue }
    | none => p
  | .finish task _ =>
    if task ∈ p.running then { p.decrementPending task.flightKey with running := p.running.erase task } else p
  | .stop => { p with queue := p.queue.stop }

/-! ### The refinements in flight -/

/-- How many tasks in the list have the key. -/
def ofKey (key : UInt64) (tasks : List RefineTask) : ℕ := tasks.countP (·.flightKey = key)

/-- The refinements in the queue. -/
def queued (p : Pipeline) : List RefineTask :=
  p.queue.queue.filterMap fun
    | .refine task => some task
    | .other => none

/-- The refinements of a key that are being pushed, queued or running. -/
def inFlight (p : Pipeline) (key : UInt64) : ℕ := ofKey key p.pushing + ofKey key p.queued + ofKey key p.running

/-- The refinements of a key whose push failed, and that are still counted. -/
def toTakeBack (p : Pipeline) (key : UInt64) : ℕ := ofKey key p.failed

theorem ofKey_append (key : UInt64) (l l' : List RefineTask) : ofKey key (l ++ l') = ofKey key l + ofKey key l' :=
  List.countP_append

theorem ofKey_singleton (key : UInt64) (task : RefineTask) :
    ofKey key [task] = if task.flightKey = key then 1 else 0 := by
  simp [ofKey, List.countP_cons]

theorem ofKey_erase (key : UInt64) {task : RefineTask} {l : List RefineTask} (h : task ∈ l) :
    ofKey key (l.erase task) + ofKey key [task] = ofKey key l := by
  have hperm : l.Perm (task :: l.erase task) := List.perm_cons_erase h
  rw [ofKey, ofKey, ofKey, hperm.countP_eq, ← List.countP_append]
  exact (List.perm_append_singleton _ _).countP_eq _

/-- The counters say how many refinements there are. -/
def Counted (p : Pipeline) : Prop := ∀ key, p.pending key = (p.inFlight key + p.toTakeBack key : ℕ)

theorem pending_incrementPending (p : Pipeline) (key k : UInt64) :
    (p.incrementPending key).pending k = p.pending k + if key = k then 1 else 0 := by
  by_cases h : key = k
  · simp [incrementPending, pending, h]
  · simp [incrementPending, pending, h, Function.update_of_ne (Ne.symm h)]

/-- A counter that is not 0 goes down by one. -/
theorem pending_decrementPending {p : Pipeline} {key : UInt64} (hpos : 0 < p.pending key) (k : UInt64) :
    (p.decrementPending key).pending k = p.pending k - if key = k then 1 else 0 := by
  unfold pending at hpos
  unfold decrementPending
  cases hn : p.nsInFlight key with
  | none => simp [hn] at hpos
  | some n =>
    simp only [hn, Option.getD_some] at hpos
    by_cases h : key = k
    · subst h
      simp [hpos, pending, hn]
    · simp [hpos, pending, h, Function.update_of_ne (Ne.symm h)]

/-- Counting down changes nothing else. -/
theorem decrementPending_frame (p : Pipeline) (key : UInt64) :
    ∃ n, p.decrementPending key = { p with nsInFlight := n } := by
  unfold decrementPending
  split
  · split
    · exact ⟨_, rfl⟩
    · exact ⟨p.nsInFlight, rfl⟩
  · exact ⟨p.nsInFlight, rfl⟩

/-- A task among those that are counted makes its counter more than 0. -/
theorem Counted.pos {p : Pipeline} (h : p.Counted) {task : RefineTask} (hm : task ∈ p.failed ∨ task ∈ p.running) :
    0 < p.pending task.flightKey := by
  have hone : ∀ {l : List RefineTask}, task ∈ l → 0 < ofKey task.flightKey l := fun hl =>
    List.countP_pos_iff.mpr ⟨task, hl, by simp⟩
  rw [h task.flightKey, inFlight, toTakeBack]
  rcases hm with hm | hm
  · have := hone hm
    omega
  · have := hone hm
    omega

/-- A step that leaves the counters alone moves tasks from one place to another. -/
theorem Counted.of_same {p p' : Pipeline} (h : p.Counted) (hn : p'.nsInFlight = p.nsInFlight)
    (hc : ∀ key, p'.inFlight key + p'.toTakeBack key = p.inFlight key + p.toTakeBack key) : p'.Counted := by
  intro key
  rw [hc key, ← h key, pending, pending, hn]

/-- A step that takes a task away counts it down. -/
theorem Counted.of_less {p p' : Pipeline} (h : p.Counted) {task : RefineTask}
    (hm : task ∈ p.failed ∨ task ∈ p.running)
    (hn : p'.nsInFlight = (p.decrementPending task.flightKey).nsInFlight)
    (hc : ∀ key, p'.inFlight key + p'.toTakeBack key + ofKey key [task] = p.inFlight key + p.toTakeBack key) :
    p'.Counted := by
  intro key
  have hless : p'.pending key = p.pending key - if task.flightKey = key then 1 else 0 := by
    rw [← pending_decrementPending (h.pos hm) key, pending, pending, hn]
  have hcount := hc key
  rw [ofKey_singleton] at hcount
  rw [hless, h key, ← hcount]
  split <;> simp

/-- A task counts up when it is scheduled. -/
theorem Counted.schedule {p : Pipeline} (h : p.Counted) (task : RefineTask) : (p.step (.schedule task)).Counted := by
  intro key
  have hcount : (p.step (.schedule task)).inFlight key + (p.step (.schedule task)).toTakeBack key =
      p.inFlight key + p.toTakeBack key + ofKey key [task] := by
    simp only [step, inFlight, toTakeBack, queued, incrementPending, ofKey_append]
    omega
  have hpending : (p.step (.schedule task)).pending key = (p.incrementPending task.flightKey).pending key := rfl
  rw [hcount, hpending, pending_incrementPending, h key, ofKey_singleton]
  split <;> simp

theorem Counted.push {p : Pipeline} (h : p.Counted) (task : RefineTask) (timedOut : Bool) :
    (p.step (.push task timedOut)).Counted := by
  unfold step
  dsimp only
  split
  · next hm =>
    split
    · next queue hq =>
      refine h.of_same rfl fun key => ?_
      have herase := ofKey_erase key hm
      simp only [inFlight, toTakeBack, queued, TaskQueue.queue_of_push hq, List.filterMap_append, ofKey_append,
        List.filterMap_cons, List.filterMap_nil]
      omega
    · refine h.of_same rfl fun key => ?_
      have herase := ofKey_erase key hm
      simp only [inFlight, toTakeBack, queued, ofKey_append]
      omega
    · exact h
  · exact h

theorem Counted.pop {p : Pipeline} (h : p.Counted) : (p.step .pop).Counted := by
  unfold step
  dsimp only
  split
  · next task queue hq =>
    refine h.of_same rfl fun key => ?_
    have hsingle := ofKey_append key [task] (Pipeline.queued { p with queue })
    simp only [inFlight, toTakeBack, queued, TaskQueue.queue_of_pop hq, ofKey_append, List.filterMap_cons,
      List.singleton_append] at hsingle ⊢
    omega
  · next queue hq =>
    refine h.of_same rfl fun key => ?_
    simp only [inFlight, toTakeBack, queued, TaskQueue.queue_of_pop hq, List.filterMap_cons]
  · exact h

/-- A step keeps the count. -/
theorem Counted.step {p : Pipeline} (h : p.Counted) (op : Op) : (p.step op).Counted := by
  cases op with
  | schedule task => exact h.schedule task
  | push task timedOut => exact h.push task timedOut
  | takeBack task =>
    unfold Pipeline.step
    dsimp only
    split
    · next hm =>
      refine h.of_less (.inl hm) rfl fun key => ?_
      have herase := ofKey_erase key hm
      obtain ⟨_, hframe⟩ := decrementPending_frame p task.flightKey
      simp only [hframe, inFlight, toTakeBack, queued]
      omega
    · exact h
  | pushOther timedOut =>
    unfold Pipeline.step
    dsimp only
    split
    · next queue hq =>
      refine h.of_same rfl fun key => ?_
      simp only [inFlight, toTakeBack, queued, TaskQueue.queue_of_push hq, List.filterMap_append,
        List.filterMap_cons, List.filterMap_nil, List.append_nil]
    · exact h
  | pop => exact h.pop
  | finish task threw =>
    unfold Pipeline.step
    dsimp only
    split
    · next hm =>
      refine h.of_less (.inr hm) rfl fun key => ?_
      have herase := ofKey_erase key hm
      obtain ⟨_, hframe⟩ := decrementPending_frame p task.flightKey
      simp only [hframe, inFlight, toTakeBack, queued]
      omega
    · exact h
  | stop => exact h.of_same rfl fun _ => rfl

theorem counted_init (queue : TaskQueue AsyncTask) (hq : queue.queue = []) : (init queue).Counted := by
  intro key
  simp [init, pending, inFlight, toTakeBack, queued, hq, ofKey]

/-- The queue is made empty, with room for so many tasks. -/
def start (capacity : ℕ) : Pipeline := init { capacity }

theorem counted_run (capacity : ℕ) (os : List Op) : (Run.run step (start capacity) os).Counted :=
  Run.run_inv step (I := fun _ p => p.Counted) (C := fun _ _ => True) (fun _ _ op h _ => h.step op) os [] _
    (counted_init _ rfl) (Run.along_true _ _)

/-- **The counter of a key.** After any steps of the threads it is the number of
the key's refinements that are being pushed, queued or running, and of those
whose failed push is still to be taken back; it is never below 0; and a wait
that returns true does so when there is none of them. -/
theorem pending_eq_inFlight (capacity : ℕ) (os : List Op) (key : UInt64) :
    (Run.run step (start capacity) os).pending key =
        ((Run.run step (start capacity) os).inFlight key + (Run.run step (start capacity) os).toTakeBack key : ℕ) ∧
      0 ≤ (Run.run step (start capacity) os).pending key ∧
      ∀ timedOut, (Run.run step (start capacity) os).waitForPendingRefinements key timedOut = some true →
        (Run.run step (start capacity) os).inFlight key = 0 ∧
          (Run.run step (start capacity) os).toTakeBack key = 0 := by
  have hcounted := counted_run capacity os key
  generalize Run.run step (start capacity) os = p at hcounted
  refine ⟨hcounted, by omega, fun timedOut hwait => ?_⟩
  have hzero : p.pending key ≤ 0 := by
    unfold waitForPendingRefinements at hwait
    unfold pending
    cases hn : p.nsInFlight key with
    | none => simp
    | some n =>
      rw [hn] at hwait
      by_cases hle : n ≤ 0
      · exact hle
      · cases timedOut <;> simp [hle] at hwait
  omega

/-- A refinement is scheduled and the engine stops before it is queued. -/
def stopped : List Op :=
  [.schedule ⟨1, 0, 7, false⟩, .stop, .push ⟨1, 0, 7, false⟩ false]

/-- The push has failed, so none of the key's refinements is being pushed,
queued or running, and the counter is still 1. -/
theorem stopped_counts_one :
    ¬ (∀ (capacity : ℕ) (os : List Op) (key : UInt64),
      (Run.run step (start capacity) os).pending key = ((Run.run step (start capacity) os).inFlight key : ℕ)) ∧
    (Run.run step (start 10000) stopped).pending 7 = 1 ∧ (Run.run step (start 10000) stopped).inFlight 7 = 0 := by
  have hone : (Run.run step (start 10000) stopped).pending 7 = 1 := by decide
  have hnone : (Run.run step (start 10000) stopped).inFlight 7 = 0 := by decide
  refine ⟨fun h => ?_, hone, hnone⟩
  have := h 10000 stopped 7
  rw [hone, hnone] at this
  cases this

end Pipeline
end Barrier
end Capture
end Amind
