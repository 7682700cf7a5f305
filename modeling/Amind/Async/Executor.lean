/-
# The workers and their shutdown

A worker takes task after task while the executor runs. When there is none it looks at
the queue under its lock, finds neither a task nor the stop, and goes to sleep; between
the look and the sleep it still has the lock, but the shutdown sets the stop, and wakes
who sleeps, without it.

In every run each task that the queue took is executed once, in the hands of one worker,
or still in the queue, in its order; the workers leave those that are in the queue when
the executor stops (`tasks_run`). And the shutdown can come to its end if and only if no
worker is about to fall asleep when it wakes the others, or a push is still to wake one
(`joins_iff`).
-/
import Mathlib.Data.List.Perm.Basic
import Amind.Async.TaskQueue
import Amind.Lib.Parties
import Amind.Lib.Run

namespace Amind
namespace Async
namespace Executor

open Run (run Along)

variable {T : Type}

/-- Where a worker is in its loop. -/
inductive Worker (T : Type)
  /-- Before it looks whether the executor runs. -/
  | top
  /-- In `pop`, before it has the lock. -/
  | entering
  /-- With the lock: there was neither a task nor the stop. -/
  | dozing
  /-- In the wait, without the lock. -/
  | asleep
  | working (task : T)
  | done

namespace Worker

def isDozing : Worker T → Bool
  | .dozing => true
  | _ => false

def isAsleep : Worker T → Bool
  | .asleep => true
  | _ => false

def isDone : Worker T → Bool
  | .done => true
  | _ => false

/-- The task that a worker is at. -/
def hands : Worker T → List T
  | .working task => [task]
  | _ => []

end Worker

/-- The queue, the workers, and what was done so far: the tasks that were taken by the
queue, popped from it, and executed, and whether all workers were woken for the stop.
`ringing` is how many pushes are still to wake a worker. -/
structure State (T : Type) where
  queue : TaskQueue T
  running : Bool := true
  workers : List (Worker T)
  tasksCompleted : ℕ := 0
  tasksFailed : ℕ := 0
  ringing : ℕ := 0
  rung : Bool := false
  accepted : List T := []
  taken : List T := []
  executed : List T := []

inductive Action (T : Type)
  | push (task : T) (timedOut : Bool)
  /-- `not_empty_.notify_one()`: worker `i` is woken, if one sleeps. -/
  | ring (i : ℕ)
  /-- A worker wakes that was not woken. -/
  | spurious (i : ℕ)
  /-- The next step of a worker; `ok` is whether its task returns. -/
  | work (i : ℕ) (ok : Bool)
  /-- The three steps of the shutdown, before it waits for the workers. -/
  | leave
  | stop
  | notifyAll

namespace State

/-- No worker has the lock of the queue. -/
def Free (s : State T) : Prop := ∀ w ∈ s.workers, w.isDozing = false

instance (s : State T) : Decidable s.Free := inferInstanceAs (Decidable (∀ _ ∈ _, _))

def become (s : State T) (i : ℕ) (w : Worker T) : State T := { s with workers := s.workers.set i w }

/-- What `pop` comes to, with the lock. -/
def look (s : State T) (i : ℕ) : State T :=
  match s.queue.pop with
  | some (task, queue) => { s.become i (.working task) with queue := queue, taken := s.taken ++ [task] }
  | none => s.become i (if s.queue.stopped then .done else .dozing)

def workerStep (s : State T) (i : ℕ) (ok : Bool) : State T :=
  match s.workers[i]? with
  | some .top => s.become i (if s.running then .entering else .done)
  | some .entering => if s.Free then s.look i else s
  | some .dozing => s.become i .asleep
  | some (.working task) =>
    { s.become i .top with
      tasksCompleted := s.tasksCompleted + if ok then 1 else 0
      tasksFailed := s.tasksFailed + if ok then 0 else 1
      executed := s.executed ++ [task] }
  | _ => s

/-- What a step comes to. One that is not possible changes nothing. -/
def step (s : State T) : Action T → State T
  | .push task timedOut =>
    if s.Free then
      match s.queue.push task timedOut with
      | some (.ok queue) => { s with queue := queue, ringing := s.ringing + 1, accepted := s.accepted ++ [task] }
      | _ => s
    else s
  | .ring i =>
    if s.ringing = 0 then s
    else
      match s.workers[i]? with
      | some .asleep => { s.become i .entering with ringing := s.ringing - 1 }
      | _ => if ∃ w ∈ s.workers, w.isAsleep = true then s else { s with ringing := s.ringing - 1 }
  | .spurious i =>
    match s.workers[i]? with
    | some .asleep => s.become i .entering
    | _ => s
  | .work i ok => s.workerStep i ok
  | .leave => { s with running := false }
  | .stop => if s.running then s else { s with queue := s.queue.stop }
  | .notifyAll =>
    if s.queue.stopped ∧ s.rung = false then
      { s with workers := s.workers.map fun w => if w.isAsleep then .entering else w, rung := true }
    else s

/-- The shutdown returns: every worker has left its loop. -/
def Joined (s : State T) : Prop := ∀ w ∈ s.workers, w.isDone = true

end State

/-- An executor with `n` workers. -/
def start (capacity n : ℕ) : State T where
  queue := { capacity := capacity }
  workers := List.replicate n .top

/-! ### Tasks -/

/-- What holds of the tasks in every run. -/
structure Kept (s : State T) : Prop where
  order : s.accepted = s.taken ++ s.queue.queue
  once : (s.executed ++ s.workers.flatMap Worker.hands).Perm s.taken
  counted : s.tasksCompleted + s.tasksFailed = s.executed.length
  bounded : s.queue.queue.length ≤ s.queue.capacity

section Tasks

variable {s : State T}

/-- A worker goes on, with what it had in its hands. -/
theorem Kept.become (hs : Kept s) {i : ℕ} {x y : Worker T} (h : s.workers[i]? = some x)
    (hxy : y.hands = x.hands) : Kept (s.become i y) where
  order := hs.order
  once := by
    have hperm := Parties.perm_set Worker.hands h y
    rw [hxy, List.perm_append_right_iff] at hperm
    exact (hperm.append_left s.executed).trans hs.once
  counted := hs.counted
  bounded := hs.bounded

theorem Kept.look (hs : Kept s) {i : ℕ} (h : s.workers[i]? = some .entering) : Kept (s.look i) := by
  unfold State.look
  split
  · rename_i task queue hpop
    have hqueue := TaskQueue.queue_of_pop hpop
    have hcapacity := (TaskQueue.pop_eq_some hpop).2
    refine ⟨?_, ?_, hs.counted, ?_⟩
    · change s.accepted = s.taken ++ [task] ++ queue.queue
      rw [hs.order, hqueue, List.append_assoc]
      rfl
    · have hperm := Parties.perm_set Worker.hands h (.working task)
      have hnone : Worker.hands (T := T) .entering = [] := rfl
      rw [hnone, List.append_nil] at hperm
      have hmore := (hperm.append_left s.executed).trans (List.append_assoc _ _ _ ▸ hs.once.append_right [task])
      exact hmore
    · change queue.queue.length ≤ queue.capacity
      have hlen := hs.bounded
      rw [hqueue, List.length_cons] at hlen
      rw [hcapacity]
      omega
  · split
    · exact hs.become h rfl
    · exact hs.become h rfl

theorem Kept.workerStep (hs : Kept s) (i : ℕ) (ok : Bool) : Kept (s.workerStep i ok) := by
  unfold State.workerStep
  split
  · next h => split <;> exact hs.become h rfl
  · next h =>
    split
    · exact hs.look h
    · exact hs
  · next h => exact hs.become h rfl
  · next task h =>
    refine ⟨hs.order, ?_, ?_, hs.bounded⟩
    · have hperm := Parties.perm_set Worker.hands h .top
      have hnone : Worker.hands (T := T) .top = [] := rfl
      have hone : Worker.hands (.working task) = [task] := rfl
      rw [hnone, hone, List.append_nil] at hperm
      change (s.executed ++ [task] ++ (s.workers.set i .top).flatMap Worker.hands).Perm s.taken
      rw [List.append_assoc]
      exact ((List.perm_append_comm.trans hperm).append_left s.executed).trans hs.once
    · change s.tasksCompleted + (if ok then 1 else 0) + (s.tasksFailed + if ok then 0 else 1) =
        (s.executed ++ [task]).length
      have hcount := hs.counted
      rw [List.length_append, List.length_singleton]
      cases ok <;> simp <;> omega
  · exact hs

theorem hands_wake (ws : List (Worker T)) :
    (ws.map fun w => if w.isAsleep then .entering else w).flatMap Worker.hands = ws.flatMap Worker.hands := by
  rw [List.flatMap_map]
  refine List.flatMap_congr fun w _ => ?_
  cases w <;> rfl

theorem Kept.step (hs : Kept s) (a : Action T) : Kept (s.step a) := by
  cases a with
  | push task timedOut =>
    dsimp only [State.step]
    split
    · split
      · next queue hpush =>
        refine ⟨?_, hs.once, hs.counted, ?_⟩
        · change s.accepted ++ [task] = s.taken ++ queue.queue
          rw [TaskQueue.queue_of_push hpush, hs.order, List.append_assoc]
        · obtain ⟨hroom, rfl⟩ := TaskQueue.push_eq_ok hpush
          change (s.queue.queue ++ [task]).length ≤ s.queue.capacity
          rw [List.length_append, List.length_singleton]
          exact hroom
      · exact hs
    · exact hs
  | ring i =>
    dsimp only [State.step]
    split
    · exact hs
    · split
      · next h =>
        have hwoken := hs.become (y := .entering) h rfl
        exact ⟨hwoken.order, hwoken.once, hwoken.counted, hwoken.bounded⟩
      · split
        · exact hs
        · exact ⟨hs.order, hs.once, hs.counted, hs.bounded⟩
  | spurious i =>
    dsimp only [State.step]
    split
    · next h => exact hs.become h rfl
    · exact hs
  | work i ok => exact hs.workerStep i ok
  | leave => exact ⟨hs.order, hs.once, hs.counted, hs.bounded⟩
  | stop =>
    dsimp only [State.step]
    split
    · exact hs
    · exact ⟨hs.order, hs.once, hs.counted, hs.bounded⟩
  | notifyAll =>
    dsimp only [State.step]
    split
    · refine ⟨hs.order, ?_, hs.counted, hs.bounded⟩
      change (s.executed ++ (s.workers.map fun w => if w.isAsleep then .entering else w).flatMap Worker.hands).Perm s.taken
      rw [hands_wake]
      exact hs.once
    · exact hs

theorem kept_start (capacity n : ℕ) : Kept (start capacity n : State T) where
  order := rfl
  once := by
    have hnone : (List.replicate n (.top : Worker T)).flatMap Worker.hands = [] := by
      simp [Worker.hands]
    change ([] ++ (List.replicate n (.top : Worker T)).flatMap Worker.hands).Perm []
    rw [hnone]
    exact .refl _
  counted := rfl
  bounded := Nat.zero_le _

/-- **Tasks** in every run of pushes, workers and the shutdown: those that the queue took
were taken out of it in their order, or are still in it; those that were taken out were
executed or are in the hands of one worker, each once; and each that was executed was
counted once. When the shutdown returns, those that are in the queue are executed no
more. -/
theorem tasks_run (capacity n : ℕ) (as : List (Action T)) :
    Kept (run State.step (start capacity n) as) ∧
      ((run State.step (start capacity n) as).Joined →
        (run State.step (start capacity n) as).executed.Perm (run State.step (start capacity n) as).taken) := by
  have hrun : Kept (run State.step (start capacity n : State T) as) :=
    Run.run_inv State.step (I := fun _ s => Kept s) (C := fun _ _ => True)
      (fun _ _ a hs _ => hs.step a) as [] (start capacity n) (kept_start capacity n) (Run.along_true _ _)
  refine ⟨hrun, fun hjoined => ?_⟩
  have hempty : (run State.step (start capacity n : State T) as).workers.flatMap Worker.hands = [] := by
    refine List.flatMap_eq_nil_iff.mpr fun w hw => ?_
    have hdone := hjoined w hw
    cases w <;> first | rfl | cases hdone
  have honce := hrun.once
  rwa [hempty, List.append_nil] at honce

end Tasks

/-! ### The shutdown -/

section Shutdown

variable {s : State T}

/-- How many workers sleep, or are about to. -/
def State.sleepers (s : State T) : ℕ := s.workers.countP fun w => w.isDozing || w.isAsleep

/-- One worker at most has the lock. -/
def State.Locked (s : State T) : Prop := s.workers.countP Worker.isDozing ≤ 1

theorem countP_free (h : s.Free) : s.workers.countP Worker.isDozing = 0 :=
  List.countP_eq_zero.mpr fun w hw => by
    rw [h w hw]
    exact Bool.false_ne_true

theorem Locked.become (hs : s.Locked) {i : ℕ} {x y : Worker T} (h : s.workers[i]? = some x)
    (hy : y.isDozing = false) : (s.become i y).Locked := by
  have hcount := Parties.countP_set Worker.isDozing h y
  have hone : s.workers.countP Worker.isDozing ≤ 1 := hs
  rw [hy] at hcount
  change (s.workers.set i y).countP Worker.isDozing ≤ 1
  simp only [Bool.toNat_false] at hcount
  omega

theorem Locked.step (hs : s.Locked) (a : Action T) : (s.step a).Locked := by
  cases a with
  | push task timedOut =>
    dsimp only [State.step]
    split
    · split <;> exact hs
    · exact hs
  | ring i =>
    dsimp only [State.step]
    split
    · exact hs
    · split
      · next h => exact Locked.become hs (y := .entering) h rfl
      · split <;> exact hs
  | spurious i =>
    dsimp only [State.step]
    split
    · next h => exact Locked.become hs h rfl
    · exact hs
  | leave => exact hs
  | stop =>
    dsimp only [State.step]
    split <;> exact hs
  | notifyAll =>
    dsimp only [State.step]
    split
    · have hmap : (s.workers.map fun w => if w.isAsleep then .entering else w).countP Worker.isDozing =
          s.workers.countP Worker.isDozing := by
        rw [List.countP_map]
        refine List.countP_congr fun w _ => ?_
        cases w <;> exact Iff.rfl
      change (s.workers.map fun w => if w.isAsleep then .entering else w).countP Worker.isDozing ≤ 1
      rw [hmap]
      exact hs
    · exact hs
  | work i ok =>
    dsimp only [State.step, State.workerStep]
    split
    · next h => split <;> exact Locked.become hs h rfl
    · next h =>
      split
      · next hfree =>
        -- the one that looks is the only one
        unfold State.look
        split
        · exact Locked.become hs (y := .working _) h rfl
        · have hcount := Parties.countP_set Worker.isDozing h (if s.queue.stopped then .done else .dozing)
          have hle := Bool.toNat_le (Worker.isDozing (if s.queue.stopped then .done else .dozing : Worker T))
          rw [countP_free hfree] at hcount
          change (s.workers.set i _).countP Worker.isDozing ≤ 1
          omega
      · exact hs
    · next h => exact Locked.become hs h rfl
    · next h => exact Locked.become hs (y := .top) h rfl
    · exact hs

/-! ### A shutdown that does not return -/

/-- All were woken, and more sleep, or are about to, than pushes are to wake one. -/
structure Hung (s : State T) : Prop where
  stopped : s.queue.stopped = true
  rung : s.rung = true
  sleepers : s.ringing < s.sleepers

theorem sleepers_become {i : ℕ} {x : Worker T} (h : s.workers[i]? = some x) (y : Worker T) :
    (s.become i y).sleepers + (x.isDozing || x.isAsleep).toNat = s.sleepers + (y.isDozing || y.isAsleep).toNat :=
  Parties.countP_set (fun w : Worker T => w.isDozing || w.isAsleep) h y

/-- A worker goes on that sleeps as much as before. -/
theorem Hung.become (hs : Hung s) {i : ℕ} {x y : Worker T} (h : s.workers[i]? = some x)
    (hxy : (y.isDozing || y.isAsleep) = (x.isDozing || x.isAsleep)) : Hung (s.become i y) := by
  have hcount := sleepers_become h y
  have hmore := hs.sleepers
  rw [hxy] at hcount
  refine ⟨hs.stopped, hs.rung, ?_⟩
  change s.ringing < (s.become i y).sleepers
  omega

theorem Hung.workerStep (hs : Hung s) (i : ℕ) (ok : Bool) : Hung (s.workerStep i ok) := by
  unfold State.workerStep
  split
  · next h => split <;> exact hs.become h rfl
  · next h =>
    split
    · unfold State.look
      split
      · next task queue hpop =>
        have hwoken := hs.become (y := .working task) h rfl
        exact ⟨(TaskQueue.pop_eq_some hpop).1.trans hs.stopped, hwoken.rung, hwoken.sleepers⟩
      · rw [if_pos hs.stopped]
        exact hs.become h rfl
    · exact hs
  · next h => exact hs.become h rfl
  · next h =>
    have hleft := hs.become (y := .top) h rfl
    exact ⟨hleft.stopped, hleft.rung, hleft.sleepers⟩
  · exact hs

/-- No worker wakes that was not woken. -/
def Prompt (_ : State T) (a : Action T) : Prop := ∀ i, a ≠ .spurious i

theorem Hung.step (hs : Hung s) {a : Action T} (ha : Prompt s a) : Hung (s.step a) := by
  cases a with
  | push task timedOut =>
    dsimp only [State.step]
    split
    · have hrefused : s.queue.push task timedOut = some (.error .stopped) := by
        rw [TaskQueue.push, if_pos hs.stopped]
      rw [hrefused]
      exact hs
    · exact hs
  | ring i =>
    have hmore := hs.sleepers
    dsimp only [State.step]
    split
    · exact hs
    · next hring =>
      split
      · next h =>
        have hcount : (s.become i .entering).sleepers + 1 = s.sleepers + 0 := sleepers_become h .entering
        refine ⟨hs.stopped, hs.rung, ?_⟩
        change s.ringing - 1 < (s.become i .entering).sleepers
        omega
      · split
        · exact hs
        · refine ⟨hs.stopped, hs.rung, ?_⟩
          change s.ringing - 1 < s.sleepers
          omega
  | spurious i => exact absurd rfl (ha i)
  | work i ok => exact hs.workerStep i ok
  | leave => exact ⟨hs.stopped, hs.rung, hs.sleepers⟩
  | stop =>
    dsimp only [State.step]
    split
    · exact hs
    · exact ⟨rfl, hs.rung, hs.sleepers⟩
  | notifyAll =>
    have hno : ¬ (s.queue.stopped ∧ s.rung = false) := fun h => by
      rw [hs.rung] at h
      cases h.2
    dsimp only [State.step]
    rw [if_neg hno]
    exact hs

theorem Hung.not_joined (hs : Hung s) : ¬ s.Joined := by
  intro hjoined
  have hsome : 0 < s.sleepers := Nat.zero_lt_of_lt hs.sleepers
  obtain ⟨w, hw, hsleeps⟩ := List.countP_pos_iff.mp hsome
  have hdone := hjoined w hw
  cases w with
  | done => cases hsleeps
  | _ => cases hdone

/-! ### A shutdown that returns -/

/-- The executor is stopped, and no worker sleeps, or is about to. -/
structure Calm (s : State T) : Prop where
  running : s.running = false
  stopped : s.queue.stopped = true
  awake : ∀ w ∈ s.workers, w.isDozing = false ∧ w.isAsleep = false

/-- How many steps a worker has before it. -/
def Worker.rank : Worker T → ℕ
  | .entering => 3
  | .working _ => 2
  | .top => 1
  | _ => 0

def State.rankAt (s : State T) (i : ℕ) : ℕ := (s.workers[i]?.map Worker.rank).getD 0

/-- The step of a worker. -/
def Action.isTurn (i : ℕ) : Action T → Bool
  | .work j _ => j = i
  | _ => false

theorem Calm.become (hs : Calm s) (i : ℕ) {y : Worker T} (hy : y.isDozing = false ∧ y.isAsleep = false) :
    Calm (s.become i y) where
  running := hs.running
  stopped := hs.stopped
  awake w hw := by
    rcases List.mem_or_eq_of_mem_set hw with hw | rfl
    · exact hs.awake w hw
    · exact hy

theorem rankAt_become {i : ℕ} {x : Worker T} (h : s.workers[i]? = some x) (y : Worker T) (j : ℕ) :
    (s.become i y).rankAt j = if i = j then y.rank else s.rankAt j := by
  obtain ⟨hlt, -⟩ := List.getElem?_eq_some_iff.mp h
  unfold State.rankAt State.become
  dsimp only
  rw [List.getElem?_set]
  by_cases hij : i = j
  · rw [if_pos hij, if_pos hij, if_pos hlt]
    rfl
  · rw [if_neg hij, if_neg hij]

/-- A turn of a worker takes one step from what is before it, and none from the others. -/
theorem Calm.workerStep (hs : Calm s) (i : ℕ) (ok : Bool) :
    Calm (s.workerStep i ok) ∧ ∀ j, (s.workerStep i ok).rankAt j ≤ s.rankAt j - if i = j then 1 else 0 := by
  have hfree : s.Free := fun w hw => (hs.awake w hw).1
  have hlower : ∀ {x y : Worker T}, s.workers[i]? = some x → y.rank ≤ x.rank - 1 → ∀ j,
      (s.become i y).rankAt j ≤ s.rankAt j - if i = j then 1 else 0 := by
    intro x y h hle j
    rw [rankAt_become h]
    split
    · next hij =>
      have hrank : s.rankAt j = x.rank := by
        rw [State.rankAt, ← hij, h]
        rfl
      rw [hrank]
      exact hle
    · exact Nat.le_refl _
  have hsame : s.rankAt i = 0 → ∀ j, s.rankAt j ≤ s.rankAt j - if i = j then 1 else 0 := by
    intro hzero j
    split
    · next hij =>
      have hat : s.rankAt j = 0 := hij ▸ hzero
      exact Nat.le_trans (Nat.le_of_eq hat) (Nat.zero_le _)
    · exact Nat.le_refl _
  unfold State.workerStep
  split
  · next h =>
    rw [hs.running, if_neg Bool.false_ne_true]
    exact ⟨hs.become i ⟨rfl, rfl⟩, hlower h (Nat.zero_le _)⟩
  · next h =>
    rw [if_pos hfree]
    unfold State.look
    split
    · next task queue hpop =>
      have hleft := hs.become i (y := .working task) ⟨rfl, rfl⟩
      have hstopped := (TaskQueue.pop_eq_some hpop).1.trans hs.stopped
      exact ⟨⟨hleft.running, hstopped, hleft.awake⟩, hlower h (y := .working task) (Nat.le_refl 2)⟩
    · rw [if_pos hs.stopped]
      exact ⟨hs.become i ⟨rfl, rfl⟩, hlower h (Nat.zero_le _)⟩
  · next h => cases hfree _ (List.mem_of_getElem? h)
  · next h =>
    have hleft := hs.become i (y := .top) ⟨rfl, rfl⟩
    exact ⟨⟨hleft.running, hleft.stopped, hleft.awake⟩, hlower h (y := .top) (Nat.le_refl 1)⟩
  · next htop hentering _ hworking =>
    refine ⟨hs, hsame ?_⟩
    unfold State.rankAt
    cases h : s.workers[i]? with
    | none => rfl
    | some w =>
      cases w with
      | top => exact absurd h htop
      | entering => exact absurd h hentering
      | working task => exact absurd h (hworking task)
      | _ => rfl

theorem Calm.step (hs : Calm s) (a : Action T) :
    Calm (s.step a) ∧ ∀ j, (s.step a).rankAt j ≤ s.rankAt j - if a.isTurn j then 1 else 0 := by
  have hstays : ∀ {s' : State T}, Calm s' → s'.workers = s.workers →
      Calm s' ∧ ∀ j, s'.rankAt j ≤ s.rankAt j - 0 := by
    intro s' h hworkers
    refine ⟨h, fun j => ?_⟩
    unfold State.rankAt
    rw [hworkers]
    exact Nat.le_refl _
  have hnone : ∀ {i : ℕ}, s.workers[i]? ≠ some .asleep := fun h => by
    cases (hs.awake _ (List.mem_of_getElem? h)).2
  cases a with
  | push task timedOut =>
    have hrefused : s.queue.push task timedOut = some (.error .stopped) := by
      rw [TaskQueue.push, if_pos hs.stopped]
    dsimp only [State.step]
    rw [hrefused]
    split <;> exact hstays hs rfl
  | ring i =>
    dsimp only [State.step]
    split
    · exact hstays hs rfl
    · split
      · next h => exact absurd h hnone
      · split
        · exact hstays hs rfl
        · exact hstays ⟨hs.running, hs.stopped, hs.awake⟩ rfl
  | spurious i =>
    dsimp only [State.step]
    split
    · next h => exact absurd h hnone
    · exact hstays hs rfl
  | work i ok =>
    obtain ⟨hcalm, hrank⟩ := hs.workerStep i ok
    refine ⟨hcalm, fun j => ?_⟩
    have hturn : (Action.work i ok : Action T).isTurn j = decide (i = j) := rfl
    rw [hturn]
    simp only [decide_eq_true_eq]
    exact hrank j
  | leave => exact hstays ⟨rfl, hs.stopped, hs.awake⟩ rfl
  | stop =>
    dsimp only [State.step]
    split
    · exact hstays hs rfl
    · exact hstays ⟨hs.running, rfl, hs.awake⟩ rfl
  | notifyAll =>
    have hmap : (s.workers.map fun w => if w.isAsleep then .entering else w) = s.workers := by
      refine (List.map_congr_left fun w hw => ?_).trans (List.map_id _)
      rw [(hs.awake w hw).2]
      rfl
    dsimp only [State.step]
    rw [hmap]
    split
    · exact hstays ⟨hs.running, hs.stopped, hs.awake⟩ rfl
    · exact hstays hs rfl

/-- Each worker has so many steps less before it as it had turns. -/
theorem calm_run : ∀ {as : List (Action T)} {s : State T}, Calm s →
    Calm (run State.step s as) ∧ ∀ j, (run State.step s as).rankAt j ≤ s.rankAt j - as.countP (Action.isTurn j)
  | [], _, hs => ⟨hs, fun _ => Nat.le_refl _⟩
  | a :: as, s, hs => by
    obtain ⟨hstep, hrank⟩ := hs.step a
    obtain ⟨hcalm, hrest⟩ := @calm_run as _ hstep
    refine ⟨hcalm, fun j => ?_⟩
    have hone := hrank j
    have hmore := hrest j
    rw [Run.run_cons, List.countP_cons]
    split at hone
    · next hturn =>
      rw [if_pos hturn]
      omega
    · next hturn =>
      rw [if_neg hturn]
      omega

theorem rank_le (w : Worker T) : w.rank ≤ 3 := by
  cases w <;> simp [Worker.rank]

/-- After three turns of each worker, all have left. -/
theorem Calm.joined (hs : Calm s) {as : List (Action T)} (h : ∀ i < s.workers.length, 3 ≤ as.countP (Action.isTurn i)) :
    (run State.step s as).Joined := by
  obtain ⟨hcalm, hrank⟩ := @calm_run _ as _ hs
  intro w hw
  obtain ⟨i, hi⟩ := List.getElem?_of_mem hw
  have hzero : w.rank = 0 := by
    have hat : (run State.step s as).rankAt i = w.rank := by
      rw [State.rankAt, hi]
      rfl
    have hbefore : s.rankAt i ≤ 3 ∧ (s.workers.length ≤ i → s.rankAt i = 0) := by
      unfold State.rankAt
      cases hx : s.workers[i]? with
      | none => exact ⟨Nat.zero_le _, fun _ => rfl⟩
      | some x => exact ⟨rank_le x, fun hlong => by rw [List.getElem?_eq_none hlong] at hx; cases hx⟩
    have hle := hrank i
    rw [hat] at hle
    rcases Nat.lt_or_ge i s.workers.length with hlt | hge
    · have hturns := h i hlt
      have hthree := hbefore.1
      omega
    · rw [hbefore.2 hge] at hle
      omega
  obtain ⟨hdozing, hasleep⟩ := hcalm.awake w hw
  cases w with
  | done => rfl
  | dozing => cases hdozing
  | asleep => cases hasleep
  | _ => cases hzero

/-- Three turns for each worker. -/
def turns (n : ℕ) : List (Action T) := ((List.range n).map fun i => List.replicate 3 (.work i true)).flatten

theorem three_turns {n i : ℕ} (h : i < n) : 3 ≤ (turns n : List (Action T)).countP (Action.isTurn i) := by
  have hsub : (List.replicate 3 (.work i true) : List (Action T)).Sublist (turns n) :=
    List.sublist_flatten_of_mem (List.mem_map_of_mem (List.mem_range.mpr h))
  have hthree : (List.replicate 3 (.work i true) : List (Action T)).countP (Action.isTurn i) = 3 := by
    have hturn : (Action.work i true : Action T).isTurn i = true := decide_eq_true rfl
    rw [List.countP_replicate, if_pos hturn]
  rw [← hthree]
  exact hsub.countP_le

theorem prompt_turns : ∀ {n : ℕ} {s : State T}, Along State.step Prompt s (turns n) := by
  have hall : ∀ {as : List (Action T)} {s : State T}, (∀ a ∈ as, ∃ i ok, a = .work i ok) →
      Along State.step Prompt s as := by
    intro as
    induction as with
    | nil => exact fun _ => trivial
    | cons a as ih =>
      intro s h
      obtain ⟨i, ok, rfl⟩ := h a List.mem_cons_self
      exact ⟨fun j => nofun, ih fun b hb => h b (List.mem_cons_of_mem _ hb)⟩
  intro n s
  refine hall fun a ha => ?_
  obtain ⟨l, hl, ha⟩ := List.mem_flatten.mp ha
  obtain ⟨i, -, rfl⟩ := List.mem_map.mp hl
  exact ⟨i, true, List.eq_of_mem_replicate ha⟩

/-- The queue is stopped when the executor runs no more. -/
theorem running_step (hs : s.queue.stopped = true → s.running = false) (a : Action T) :
    (s.step a).queue.stopped = true → (s.step a).running = false := by
  cases a with
  | push task timedOut =>
    dsimp only [State.step]
    split
    · split
      · next hpush =>
        obtain ⟨-, rfl⟩ := TaskQueue.push_eq_ok hpush
        exact hs
      · exact hs
    · exact hs
  | ring i =>
    dsimp only [State.step]
    split
    · exact hs
    · split
      · exact hs
      · split <;> exact hs
  | spurious i =>
    dsimp only [State.step]
    split <;> exact hs
  | work i ok =>
    dsimp only [State.step, State.workerStep]
    split
    · exact hs
    · split
      · unfold State.look
        split
        · next hpop =>
          intro hstopped
          exact hs ((TaskQueue.pop_eq_some hpop).1.symm.trans hstopped)
        · exact hs
      · exact hs
    · exact hs
    · exact hs
    · exact hs
  | leave => exact fun _ => rfl
  | stop =>
    dsimp only [State.step]
    split
    · exact hs
    · next hleft => exact fun _ => Bool.eq_false_iff.mpr hleft
  | notifyAll =>
    dsimp only [State.step]
    split <;> exact hs

/-- What holds of every run. -/
theorem shutdown_run (capacity n : ℕ) (as : List (Action T)) :
    ((run State.step (start capacity n) as).queue.stopped = true →
      (run State.step (start capacity n) as).running = false) ∧
      (run State.step (start capacity n) as).Locked := by
  have hlocked : (start capacity n : State T).Locked := by
    have hnone : (List.replicate n (.top : Worker T)).countP Worker.isDozing = 0 :=
      List.countP_eq_zero.mpr fun w hw => by
        rw [List.eq_of_mem_replicate hw]
        exact Bool.false_ne_true
    exact hnone.trans_le (Nat.zero_le 1)
  exact Run.run_inv State.step (C := fun _ _ => True)
    (I := fun _ s => (s.queue.stopped = true → s.running = false) ∧ s.Locked)
    (fun _ _ a hs _ => ⟨running_step hs.1 a, Locked.step hs.2 a⟩) as [] (start capacity n)
    ⟨fun h => absurd h Bool.false_ne_true, hlocked⟩ (Run.along_true _ _)

/-- The state after all were woken. -/
theorem step_notifyAll (hstopped : s.queue.stopped = true) (hrung : s.rung = false) :
    s.step .notifyAll =
      { s with workers := s.workers.map fun w => if w.isAsleep then .entering else w, rung := true } :=
  if_pos ⟨hstopped, hrung⟩

theorem not_asleep_wake {w : Worker T} (hw : w ∈ s.workers.map fun w => if w.isAsleep then .entering else w) :
    w.isAsleep = false ∧ (w.isDozing = true → w ∈ s.workers) := by
  obtain ⟨w', hw', rfl⟩ := List.mem_map.mp hw
  cases w' with
  | asleep => exact ⟨rfl, nofun⟩
  | _ => exact ⟨rfl, fun _ => hw'⟩

theorem calm_of_free (hstopped : s.queue.stopped = true) (hrung : s.rung = false) (hrunning : s.running = false)
    (hfree : s.Free) : Calm (s.step .notifyAll) := by
  rw [step_notifyAll hstopped hrung]
  refine ⟨hrunning, hstopped, fun w hw => ?_⟩
  obtain ⟨hasleep, hdozing⟩ := not_asleep_wake hw
  refine ⟨Bool.eq_false_iff.mpr fun hdoze => ?_, hasleep⟩
  rw [hfree w (hdozing hdoze)] at hdoze
  cases hdoze

/-- The one that is about to sleep goes to sleep, and is woken by a push. -/
theorem calm_of_ringing (hstopped : s.queue.stopped = true) (hrung : s.rung = false) (hrunning : s.running = false)
    (hlocked : s.Locked) (hringing : 0 < s.ringing) {i : ℕ} (hi : s.workers[i]? = some .dozing) :
    Calm (run State.step (s.step .notifyAll) [.work i true, .ring i]) := by
  rw [step_notifyAll hstopped hrung]
  set woken := s.workers.map fun w => if w.isAsleep then .entering else w with hwoken
  have hdozing : woken[i]? = some .dozing := by
    rw [hwoken, List.getElem?_map, hi]
    rfl
  obtain ⟨hlt, -⟩ := List.getElem?_eq_some_iff.mp hdozing
  have hsleeps : (woken.set i .asleep)[i]? = some .asleep := by rw [List.getElem?_set_self hlt]
  have hone : woken.countP Worker.isDozing ≤ 1 := by
    have hstep := Locked.step hlocked .notifyAll
    rw [step_notifyAll hstopped hrung] at hstep
    exact hstep
  have hrun : run State.step { s with workers := woken, rung := true } [.work i true, .ring i] =
      { s with workers := woken.set i .entering, rung := true, ringing := s.ringing - 1 } := by
    have hwork : State.step { s with workers := woken, rung := true } (.work i true) =
        { s with workers := woken.set i .asleep, rung := true } := by
      dsimp only [State.step, State.workerStep]
      rw [hdozing]
      rfl
    rw [Run.run_cons, hwork, Run.run_cons, Run.run_nil]
    dsimp only [State.step]
    rw [if_neg (by omega), hsleeps]
    dsimp only [State.become]
    rw [List.set_set]
  rw [hrun]
  refine ⟨hrunning, hstopped, fun w hw => ?_⟩
  have hnone : (woken.set i .entering).countP Worker.isDozing = 0 := by
    have hcount : (woken.set i .entering).countP Worker.isDozing + 1 = woken.countP Worker.isDozing + 0 :=
      Parties.countP_set Worker.isDozing hdozing .entering
    omega
  refine ⟨Bool.eq_false_iff.mpr (List.countP_eq_zero.mp hnone w hw), ?_⟩
  rcases List.mem_or_eq_of_mem_set hw with hw | rfl
  · exact (not_asleep_wake hw).1
  · rfl

theorem hung_of_dozing (hstopped : s.queue.stopped = true) (hrung : s.rung = false) (hquiet : s.ringing = 0)
    (hdozing : ¬ s.Free) : Hung (s.step .notifyAll) := by
  rw [step_notifyAll hstopped hrung]
  refine ⟨hstopped, rfl, ?_⟩
  unfold State.Free at hdozing
  push Not at hdozing
  obtain ⟨w, hw, hdoze⟩ := hdozing
  change s.ringing < (s.workers.map fun w => if w.isAsleep then .entering else w).countP _
  rw [hquiet]
  refine List.countP_pos_iff.mpr ⟨w, List.mem_map.mpr ⟨w, hw, ?_⟩, ?_⟩
  · cases w with
    | dozing => rfl
    | _ => exact absurd rfl hdoze
  · have htrue : w.isDozing = true := by simpa using hdoze
    rw [htrue]
    rfl

/-- **The shutdown returns**, in some continuation in which no worker wakes by itself, if
and only if no worker was about to fall asleep when it woke the others, or a push was
still to wake one; and in every continuation with three turns for each worker, if none
was. -/
theorem joins_iff (capacity n : ℕ) (as : List (Action T))
    (hstopped : (run State.step (start capacity n) as).queue.stopped = true)
    (hrung : (run State.step (start capacity n) as).rung = false) :
    let s := run State.step (start capacity n) as
    ((∃ bs, Along State.step Prompt (s.step .notifyAll) bs ∧ (run State.step (s.step .notifyAll) bs).Joined) ↔
        s.Free ∨ 0 < s.ringing) ∧
      (s.Free → ∀ bs, (∀ i < s.workers.length, 3 ≤ bs.countP (Action.isTurn i)) →
        (run State.step (s.step .notifyAll) bs).Joined) := by
  intro s
  obtain ⟨hleft, hlocked⟩ := shutdown_run capacity n as
  have hrunning := hleft hstopped
  have hlength : (s.step .notifyAll).workers.length = s.workers.length := by
    rw [step_notifyAll hstopped hrung]
    exact List.length_map _
  refine ⟨⟨?_, ?_⟩, fun hfree bs hbs => ?_⟩
  · rintro ⟨bs, hprompt, hjoined⟩
    by_contra hno
    obtain ⟨hdozing, hquiet⟩ := not_or.mp hno
    have hhung : Hung (run State.step (s.step .notifyAll) bs) :=
      Run.run_inv State.step (I := fun _ s => Hung s) (fun _ _ _ h hc => h.step hc) bs []
        (s.step .notifyAll) (hung_of_dozing hstopped hrung (by omega) hdozing) hprompt
    exact hhung.not_joined hjoined
  · rintro (hfree | hringing)
    · refine ⟨turns s.workers.length, prompt_turns, ?_⟩
      refine (calm_of_free hstopped hrung hrunning hfree).joined fun i hi => three_turns ?_
      rwa [hlength] at hi
    · by_cases hfree : s.Free
      · refine ⟨turns s.workers.length, prompt_turns, ?_⟩
        refine (calm_of_free hstopped hrung hrunning hfree).joined fun i hi => three_turns ?_
        rwa [hlength] at hi
      · unfold State.Free at hfree
        push Not at hfree
        obtain ⟨w, hw, hdoze⟩ := hfree
        obtain ⟨i, hi⟩ := List.getElem?_of_mem hw
        have hdozing : s.workers[i]? = some .dozing := by
          rw [hi]
          cases w with
          | dozing => rfl
          | _ => exact absurd rfl hdoze
        have hcalm := calm_of_ringing hstopped hrung hrunning hlocked hringing hdozing
        refine ⟨[.work i true, .ring i] ++
          turns (run State.step (s.step .notifyAll) [.work i true, .ring i]).workers.length, ?_, ?_⟩
        · rw [Run.along_append]
          exact ⟨⟨fun j => nofun, fun j => nofun, trivial⟩, prompt_turns⟩
        · rw [Run.run_append]
          exact hcalm.joined fun i hi => three_turns hi
  · refine (calm_of_free hstopped hrung hrunning hfree).joined fun i hi => hbs i ?_
    rwa [hlength] at hi

/-- One worker looks at the empty queue just before the stop. -/
def lostWakeup : List (Action T) := [.work 0 true, .work 0 true, .leave, .stop]

theorem joins_lostWakeup :
    ((∃ bs, Along State.step Prompt ((run State.step (start 8 1) lostWakeup).step .notifyAll) bs ∧
        (run State.step ((run State.step (start 8 1) lostWakeup).step .notifyAll : State ℕ) bs).Joined) ↔
      (run State.step (start 8 1) lostWakeup : State ℕ).Free ∨
        0 < (run State.step (start 8 1) lostWakeup : State ℕ).ringing) ∧
    ¬ ((run State.step (start 8 1) lostWakeup : State ℕ).Free ∨
      0 < (run State.step (start 8 1) lostWakeup : State ℕ).ringing) :=
  ⟨(joins_iff 8 1 lostWakeup rfl rfl).1, by decide⟩

end Shutdown

end Executor
end Async
end Amind
