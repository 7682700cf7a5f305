/-
# The queue of background tasks

A bounded queue that many threads push to and the workers pop from. Each
operation holds the lock while it decides, so it is one step: a push that finds
no room waits, and gives up when its time is over; a stopped queue takes nothing
more, and hands out what it still has.
-/
import Mathlib.Data.List.Basic

namespace Amind
namespace Async

structure TaskQueue (T : Type) where
  capacity : ℕ
  queue : List T := []
  stopped : Bool := false
  totalProcessed : ℕ := 0

inductive PushError
  | stopped | atCapacity
  deriving DecidableEq, Repr

namespace TaskQueue

variable {T : Type}

/-- What a push comes to at this moment; it goes on waiting if that is nothing.
`timedOut` is whether its time is over. -/
def push (q : TaskQueue T) (task : T) (timedOut : Bool) : Option (Except PushError (TaskQueue T)) :=
  if q.stopped then some (.error .stopped)
  else if q.queue.length < q.capacity then some (.ok { q with queue := q.queue ++ [task] })
  else if timedOut then some (.error .atCapacity)
  else none

/-- The first task, if there is one. A worker waits for one as long as the queue
is not stopped. -/
def pop (q : TaskQueue T) : Option (T × TaskQueue T) :=
  match q.queue with
  | [] => none
  | task :: rest => some (task, { q with queue := rest, totalProcessed := q.totalProcessed + 1 })

def stop (q : TaskQueue T) : TaskQueue T := { q with stopped := true }

/-- A push that succeeds adds the task at the end. -/
theorem queue_of_push {q q' : TaskQueue T} {task : T} {timedOut : Bool}
    (h : q.push task timedOut = some (.ok q')) : q'.queue = q.queue ++ [task] := by
  unfold push at h
  split at h
  · cases h
  · split at h
    · cases h
      rfl
    · split at h <;> cases h

/-- A pop takes the first task. -/
theorem queue_of_pop {q q' : TaskQueue T} {task : T} (h : q.pop = some (task, q')) : q.queue = task :: q'.queue := by
  unfold pop at h
  split at h
  · cases h
  · next hq =>
    cases h
    exact hq

/-- A push that succeeds found room. -/
theorem push_eq_ok {q q' : TaskQueue T} {task : T} {timedOut : Bool} (h : q.push task timedOut = some (.ok q')) :
    q.queue.length < q.capacity ∧ q' = { q with queue := q.queue ++ [task] } := by
  unfold push at h
  split at h
  · cases h
  · split at h
    · next hroom =>
      cases h
      exact ⟨hroom, rfl⟩
    · split at h <;> cases h

theorem pop_eq_some {q q' : TaskQueue T} {task : T} (h : q.pop = some (task, q')) :
    q'.stopped = q.stopped ∧ q'.capacity = q.capacity := by
  unfold pop at h
  split at h
  · cases h
  · cases h
    exact ⟨rfl, rfl⟩

end TaskQueue
end Async
end Amind
