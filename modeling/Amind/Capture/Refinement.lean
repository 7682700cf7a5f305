/-
# Capturing now and embedding later

A capture stores its text without an embedding and answers with the id. A task
for it goes into a bounded queue, and the worker that takes it has the text
embedded, sets the embedding and so puts the record into the vector index. What
capturing answered does not depend on the task: a push that is given up is logged,
workers that are told to stop leave what is queued, an embedder may throw; and
opening a store inserts only what has an embedding.

`found_run` says that nothing else is lost: as long as no push is given up, no
embedder throws or answers with a vector that does not fit, and no refinement is
queued when a store is opened again, every captured record that is alive is in
the index once no refinement is queued or running, unless its own embedding failed.
It also needs that no id is drawn twice, which a clock that goes back between two
lives of a store could bring about.
-/
import Amind.Capture.Barrier
import Amind.Capture.Pipeline
import Amind.Memory.Enumerate

namespace Amind
namespace Capture
namespace Refinement

open Amind.Core Amind.Memory Amind.Async Amind.Vector
open Barrier (RefineTask AsyncTask)
open WireFormat (MAX_SIZE)
open Run (run Along Paused pausing Still OnOps)

/-- What the embedder answers. -/
inductive Answer (F : Type)
  | ok (v : List F)
  | error
  | thrown

/-- How far a worker is with a task: it has taken it from the queue, it is having
the text embedded, or it is past that. -/
inductive Stage
  | popped | embedding | refining
  deriving DecidableEq, Repr

/-- A store, the queue, the captures that are pushing a task and the tasks with a
worker. `returned` are the ids that captures have answered, `unembedded` those of
which the embedding call returned an error. -/
structure World (F : Type) where
  opened : Opened F
  queue : TaskQueue AsyncTask
  pushing : List RefineTask := []
  running : List (RefineTask × Stage) := []
  returned : List UInt64 := []
  unembedded : List UInt64 := []

inductive Event (F : Type)
  /-- A capture stores what it is given and is about to push its task. -/
  | capture (q : Request) (g : Given) (flightKey : UInt64) (preExtracted : Bool)
  /-- A push that is waiting looks at the queue. -/
  | push (task : RefineTask) (timedOut : Bool)
  | pushOther (timedOut : Bool)
  | pop
  /-- A worker reads the record of its task. -/
  | peek (task : RefineTask)
  | embed (task : RefineTask) (answer : Answer F) (level : ℕ)
  /-- A task ends, by itself or by an exception. -/
  | finish (task : RefineTask) (threw : Bool)
  /-- What workers do with the store past the embedding. -/
  | derived (rawMemoryId : UInt64) (agentId userId : Text) (c : DerivedCandidate F) (v : GateVerdict F) (g : Given)
    (level : ℕ)
  | remove (id : UInt64)
  | boost (id : UInt64) (delta : F)
  | get (id : UInt64) (now : UInt32)
  | flush
  /-- The executor is shut down. -/
  | stop
  /-- Once the workers have ended, the store is closed and opened again. -/
  | restart (file : Option ℕ) (keys : List UInt64) (levels : UInt64 → ℕ)

/-- The refinement that a task of the queue is. -/
def refinement : AsyncTask → Option RefineTask
  | .refine task => some task
  | .other => none

section Definitions

variable {F : Type} [Floats F]

/-- `forget`, with the index. -/
def forgetting (x : Opened F) (agentId : Text) (near : List UInt64) : Opened F :=
  near.foldl (fun x id =>
    if (x.store.load id).any fun r => r.isAlive && r.agentId = agentId then x.call (.remove id) 0 else x) x

/-- `capture`, with the index. -/
def capturing (p : Patterns) (half : F) (x : Opened F) (q : Request) (g : Given) : Opened F × Option Stored :=
  if isTransientContent p q.content then (x, none)
  else if isForgetRequest p q.content then (forgetting x q.agentId g.near, none)
  else
    (x.call (.fastStore (newRecord half q) g.clock g.now) 0,
      some (x.store.fastStore (newRecord half q) g.clock g.now).2)

/-- `processFact`, with the index. -/
def processing (half : F) (x : Opened F) (rawMemoryId : UInt64) (agentId userId : Text) (c : DerivedCandidate F)
    (v : GateVerdict F) (g : Given) (level : ℕ) : Opened F × Option Stored :=
  if v.downgraded.decision = .rejected then (x, none)
  else
    (x.call (.fastStore (derivedRecord half rawMemoryId agentId userId c v.downgraded) g.clock g.now) level,
      some (x.store.fastStore (derivedRecord half rawMemoryId agentId userId c v.downgraded) g.clock g.now).2)

namespace World

variable (y : World F)

/-- The refinements in the queue. -/
def queued : List RefineTask := y.queue.queue.filterMap refinement

/-- The refinements that are being pushed, queued or running. -/
def inFlight : List RefineTask := y.pushing ++ y.queued ++ y.running.map Prod.fst

/-- A worker goes on with its task, or is done with it. -/
def moved (task : RefineTask) (stage : Stage) (next : Option Stage) : World F :=
  { y with running := (next.toList.map fun stage => (task, stage)) ++ y.running.erase (task, stage) }

/-- One step. A step that cannot be taken changes nothing. -/
def step (p : Patterns) (half : F) (y : World F) : Event F → World F
  | .capture q g flightKey preExtracted =>
    let (opened, stored) := capturing p half y.opened q g
    match stored.bind Stored.id with
    | some id =>
      { y with
        opened := opened
        pushing := y.pushing ++ [⟨id, id, flightKey, preExtracted⟩] }
    | none => { y with opened := opened }
  | .push task timedOut =>
    if task ∈ y.pushing then
      match y.queue.push (.refine task) timedOut with
      | some (.ok queue) =>
        { y with queue := queue, pushing := y.pushing.erase task, returned := task.memoryId :: y.returned }
      | some (.error _) => { y with pushing := y.pushing.erase task, returned := task.memoryId :: y.returned }
      | none => y
    else y
  | .pushOther timedOut =>
    match y.queue.push .other timedOut with
    | some (.ok queue) => { y with queue := queue }
    | _ => y
  | .pop =>
    match y.queue.pop with
    | some (.refine task, queue) => { y with queue := queue, running := (task, .popped) :: y.running }
    | some (.other, queue) => { y with queue := queue }
    | none => y
  | .peek task =>
    if (task, Stage.popped) ∈ y.running then
      y.moved task .popped ((y.opened.store.load task.memoryId).map fun r =>
        if r.embedding = [] then .embedding else .refining)
    else y
  | .embed task answer level =>
    if (task, Stage.embedding) ∈ y.running then
      match answer with
      | .ok v =>
        let opened := y.opened.call (.setEmbedding task.memoryId v) level
        { y with opened := opened }.moved task .embedding ((opened.store.load task.memoryId).map fun _ => .refining)
      | .error => { y with unembedded := task.memoryId :: y.unembedded }.moved task .embedding (some .refining)
      | .thrown => y.moved task .embedding none
    else y
  | .finish task _ => if (task, Stage.refining) ∈ y.running then y.moved task .refining none else y
  | .derived rawMemoryId agentId userId c v g level =>
    { y with opened := (processing half y.opened rawMemoryId agentId userId c v g level).1 }
  | .remove id => { y with opened := y.opened.call (.remove id) 0 }
  | .boost id delta => { y with opened := y.opened.call (.boostImportance id delta) 0 }
  | .get id now => { y with opened := y.opened.act (.get id now) }
  | .flush => { y with opened := y.opened.call .flush 0 }
  | .stop => { y with queue := y.queue.stop }
  | .restart file keys levels =>
    if y.queue.stopped = true ∧ y.running = [] then
      { opened := y.opened.act (.turn (.reopen file keys levels))
        queue := { capacity := y.queue.capacity }
        returned := y.returned
        unembedded := y.unembedded }
    else y

/-- A new store, and a queue of this capacity. -/
def start (c : Memory.Config F) (h : HNSWConfig F) (capacity : ℕ) : World F :=
  { opened := .start c h, queue := { capacity := capacity } }

/-- Every captured record that is alive is in the index, or its own embedding failed. -/
def Found : Prop :=
  ∀ id ∈ y.returned, ∀ r, y.opened.store.peek id = .ok r → r.isAlive = true →
    y.opened.index.contains id = true ∨ id ∈ y.unembedded

/-- No refinement is queued or running. -/
def Quiet : Prop := y.queued = [] ∧ y.running = []

/-- The id is that of a capture that has answered or of a refinement under way. -/
def Tracked (id : UInt64) : Prop := id ∈ y.returned ∨ id ∈ y.inFlight.map RefineTask.memoryId

instance (id : UInt64) : Decidable (y.Tracked id) :=
  inferInstanceAs (Decidable (id ∈ y.returned ∨ id ∈ y.inFlight.map RefineTask.memoryId))

/-- No refinement is lost: a push is not given up, the embedder does not throw and
its vectors fit the index and a stored record, and when a store is opened again no
refinement is queued. No id is drawn again. -/
def Keeps (p : Patterns) (half : F) (y : World F) : Event F → Prop
  | .capture q g _ _ => ∀ id ∈ (capturing p half y.opened q g).2.bind Stored.id, ¬ y.Tracked id
  | .push task timedOut => task ∈ y.pushing → ∀ result ∈ y.queue.push (.refine task) timedOut, result.isOk = true
  | .embed task answer _ => (task, Stage.embedding) ∈ y.running →
    match answer with
    | .ok v => y.opened.store.Indexable v ∧ v.length ≤ MAX_SIZE
    | .error => True
    | .thrown => False
  | .derived rawMemoryId agentId userId c v g level =>
    ∀ id ∈ (processing half y.opened rawMemoryId agentId userId c v g level).2.bind Stored.id, ¬ y.Tracked id
  | .restart _ _ _ => y.queue.stopped = true → y.running = [] → y.queued = []
  | _ => True

/-- The storage engine has come to answer so. -/
def settle (y : World F) (answers : Answers F) : World F := { y with opened := y.opened.settle answers }

omit [Floats F] in
theorem settle_lsm (y : World F) : y.settle y.opened.store.lsm = y := rfl

/-- Opening the store walks over every stored record. -/
def Walks (y : World F) : Event F → Prop
  | .restart file keys levels => y.opened.Walks (.turn (.reopen file keys levels))
  | _ => True

instance : Decidable y.Quiet := inferInstanceAs (Decidable (y.queued = [] ∧ y.running = []))

instance (p : Patterns) (half : F) (y : World F) : ∀ e, Decidable (y.Keeps p half e)
  | .capture q g _ _ =>
    Option.decidableForallMem (p := fun id => ¬ y.Tracked id) ((capturing p half y.opened q g).2.bind Stored.id)
  | .push task timedOut =>
    inferInstanceAs (Decidable (task ∈ y.pushing →
      ∀ result ∈ y.queue.push (.refine task) timedOut, result.isOk = true))
  | .embed task (.ok v) _ =>
    inferInstanceAs (Decidable ((task, Stage.embedding) ∈ y.running →
      y.opened.store.Indexable v ∧ v.length ≤ MAX_SIZE))
  | .embed _ .error _ => isTrue fun _ => trivial
  | .embed task .thrown _ => inferInstanceAs (Decidable ((task, Stage.embedding) ∈ y.running → False))
  | .derived rawMemoryId agentId userId c v g level =>
    Option.decidableForallMem (p := fun id => ¬ y.Tracked id)
      ((processing half y.opened rawMemoryId agentId userId c v g level).2.bind Stored.id)
  | .restart _ _ _ =>
    inferInstanceAs (Decidable (y.queue.stopped = true → y.running = [] → y.queued = []))
  | .pushOther _ | .pop | .peek _ | .finish _ _ | .remove _ | .boost _ _ | .get _ _ | .flush | .stop =>
    isTrue trivial

end World

end Definitions

/-! ### What a call leaves of a record -/

section Bears

variable {F : Type} [Floats F] {x x' x'' : Opened F} {id : UInt64}

/-- A record that is shown alive was so before, with the same embedding, and is
still in the index if it was and its embedding fits. -/
structure Bears (id : UInt64) (x x' : Opened F) : Prop where
  config : x'.store.config = x.store.config
  shown : ∀ q', x'.store.shown id = some q' → q'.isAlive = true →
    ∃ q, x.store.shown id = some q ∧ q.isAlive = true ∧ q.embedding = q'.embedding ∧
      (x.store.hnsw id = true → x.store.Indexable q.embedding → x'.store.hnsw id = true)

omit [Floats F] in
theorem Bears.refl (id : UInt64) (x : Opened F) : Bears id x x := ⟨rfl, fun q h ha => ⟨q, h, ha, rfl, fun h _ => h⟩⟩

omit [Floats F] in
theorem Bears.trans (h : Bears id x x') (h' : Bears id x' x'') : Bears id x x'' where
  config := h'.config.trans h.config
  shown := fun q'' hq'' ha'' => by
    obtain ⟨q', hq', ha', he', hh'⟩ := h'.shown q'' hq'' ha''
    obtain ⟨q, hq, ha, he, hh⟩ := h.shown q' hq' ha'
    refine ⟨q, hq, ha, he.trans he', fun hin hfit => hh' (hh hin hfit) ?_⟩
    unfold MemoryStore.Indexable at hfit ⊢
    rwa [h.config, ← he]

/-- A call that neither names the record nor takes it out of the index leaves it. -/
theorem bears_call (hx : x.Sound) {op : Op F} {level : ℕ} (hn : ¬ x.store.Names op id) (hd : op.drops ≠ some id) :
    Bears id x (x.call op level) where
  config := x.store.config_exec op
  shown := fun q' hq' ha' => by
    have hq : x.store.shown id = some q' := (hx.coherent.shown_exec_other hn).symm.trans hq'
    exact ⟨q', hq, ha', rfl, fun hin _ => (x.store.hnsw_exec op id).mpr (.inr ⟨hin, hd⟩)⟩

theorem bears_remove (hx : x.Sound) (i : UInt64) (level : ℕ) : Bears id x (x.call (.remove i) level) := by
  by_cases hi : i = id
  · subst hi
    refine ⟨x.store.config_exec _, fun q' hq' ha' => ?_⟩
    have hshown : after x.store.config.wire x.store.shown (x.store.wrote (.remove i)) i = some q' := by
      rw [← hx.coherent.shown_exec]
      exact hq'
    cases hl : x.store.load i with
    | none =>
      rw [MemoryStore.wrote, hl] at hshown
      have hnone : x.store.shown i = none := by rw [MemoryStore.shown, hl]; rfl
      cases hnone.symm.trans hshown
    | some r =>
      rw [MemoryStore.wrote, hl] at hshown
      have hshown : after x.store.config.wire x.store.shown [(i, r.markTombstone)] i = some q' := hshown
      rw [after_one, if_pos rfl] at hshown
      have hdead : (version x.store.config.wire r.markTombstone).isAlive = false :=
        (MemoryRecord.tombstoned_markTombstone r).not_alive
      rw [Option.some.inj hshown, ha'] at hdead
      cases hdead
  · refine bears_call hx ?_ fun h => hi (Option.some.inj h)
    rintro (h | h)
    · exact hi (Option.some.inj h)
    · cases h

theorem bears_boost (hx : x.Sound) (i : UInt64) (delta : F) (level : ℕ) :
    Bears id x (x.call (.boostImportance i delta) level) := by
  by_cases hi : i = id
  · subst hi
    refine ⟨x.store.config_exec _, fun q' hq' ha' => ?_⟩
    have hshown : after x.store.config.wire x.store.shown (x.store.wrote (.boostImportance i delta)) i = some q' := by
      rw [← hx.coherent.shown_exec]
      exact hq'
    have hin : x.store.hnsw i = true → (x.store.exec (.boostImportance i delta)).hnsw i = true :=
      fun h => (x.store.hnsw_exec _ i).mpr (.inr ⟨h, fun h => by cases h⟩)
    rcases after_cases x.store.config.wire (x.store.wrote (.boostImportance i delta)) x.store.shown i with
      ⟨r, hr, he⟩ | ⟨-, he⟩
    · rw [he] at hshown
      cases MemoryStore.wrote_inv hr with
      | boosted _ h₀ =>
        -- only the importance differs
        refine ⟨_, by rw [MemoryStore.shown, h₀]; rfl, ?_, ?_, fun h _ => hin h⟩
        · exact (congrArg MemoryRecord.isAlive (Option.some.inj hshown)).trans ha'
        · exact congrArg (fun r => r.embedding) (Option.some.inj hshown)
    · exact ⟨q', he.symm.trans hshown, ha', rfl, fun h _ => hin h⟩
  · refine bears_call hx ?_ fun h => by cases h
    rintro (h | h)
    · exact hi (Option.some.inj h)
    · cases h

theorem bears_get (x : Opened F) (i : UInt64) (now : UInt32) : Bears id x (x.act (.get i now)) where
  config := config_get x.store i now
  shown := fun q' hq' ha' => by
    refine ⟨q', (shown_get x.store i now id).symm.trans hq', ha', rfl, fun hin _ => ?_⟩
    show (x.store.get i now).1.hnsw id = true
    rw [hnsw_get]
    exact hin

/-- Forgetting removes, one at a time. -/
theorem bears_forgetting (agentId : Text) (near : List UInt64) :
    ∀ {x : Opened F}, x.Sound → (forgetting x agentId near).Sound ∧ Bears id x (forgetting x agentId near) := by
  unfold forgetting
  induction near with
  | nil => exact fun hx => ⟨hx, .refl id _⟩
  | cons i near ih =>
    intro x hx
    rw [List.foldl_cons]
    split
    · obtain ⟨hsound, hbears⟩ := ih (hx.step (.call (.remove i) 0))
      exact ⟨hsound, (bears_remove hx i 0).trans hbears⟩
    · exact ih hx

/-- Storing a record leaves the others. -/
theorem bears_fastStore (hx : x.Sound) {r : MemoryRecord F} {clock : List ℤ} {now : UInt32} {level : ℕ}
    (h : (x.store.fastStore r clock now).2.id ≠ some id) : Bears id x (x.call (.fastStore r clock now) level) := by
  refine bears_call hx ?_ fun h => by cases h
  rintro (h' | h')
  · cases h'
  · exact h h'

/-- The store goes on from `x` to `x'`, and leaves the records but for one. -/
structure Goes (x x' : Opened F) (stored : Option UInt64) : Prop where
  sound : x'.Sound
  config : x'.store.config = x.store.config
  bears : ∀ id, stored ≠ some id → Bears id x x'

theorem goes_capturing (hx : x.Sound) (p : Patterns) (half : F) (q : Request) (g : Given) :
    Goes x (capturing p half x q g).1 ((capturing p half x q g).2.bind Stored.id) := by
  unfold capturing
  split
  · exact ⟨hx, rfl, fun id _ => .refl id x⟩
  · split
    · have hforget : ∀ id, (forgetting x q.agentId g.near).Sound ∧ Bears id x (forgetting x q.agentId g.near) :=
        fun _ => bears_forgetting q.agentId g.near hx
      exact ⟨(hforget 0).1, (hforget 0).2.config, fun id _ => (hforget id).2⟩
    · exact ⟨hx.step (.call _ 0), x.store.config_exec _, fun id h => bears_fastStore hx h⟩

theorem goes_processing (hx : x.Sound) (half : F) (rawMemoryId : UInt64) (agentId userId : Text)
    (c : DerivedCandidate F) (v : GateVerdict F) (g : Given) (level : ℕ) :
    Goes x (processing half x rawMemoryId agentId userId c v g level).1
      ((processing half x rawMemoryId agentId userId c v g level).2.bind Stored.id) := by
  unfold processing
  split
  · exact ⟨hx, rfl, fun id _ => .refl id x⟩
  · exact ⟨hx.step (.call _ level), x.store.config_exec _, fun id h => bears_fastStore hx h⟩

end Bears

/-! ### Opening a store -/

section Opening

variable {F : Type} [Floats F] {config : Config F} {hnsw : HNSWConfig F} {lsm : UInt64 → Option (MemoryRecord F)}
  {x : Opened F} {id : UInt64}

/-- What is in the index stays there while the store is opened. -/
theorem contains_reconcile (hx : x.Loading config hnsw lsm) (h : x.index.contains id = true) (levels : UInt64 → ℕ)
    (i : UInt64) : (x.reconcile levels i).index.contains id = true := by
  unfold Opened.reconcile
  split
  · exact h
  · split
    · split
      · exact h
      · exact (HNSWIndex.contains_insert hx.rooted).mpr (.inr h)
    · exact h

/-- A record that is alive and has an embedding that fits is in the index once
it was walked over. -/
theorem contains_reconciled (hx : x.Loading config hnsw lsm) {r : MemoryRecord F} (hr : lsm id = some r)
    (ha : r.isAlive = true) (hfit : x.store.Indexable r.embedding) (levels : UInt64 → ℕ) :
    (x.reconcile levels id).index.contains id = true := by
  unfold Opened.reconcile
  split
  · assumption
  · rw [hx.lsm, hr]
    dsimp only
    rw [if_neg (not_or.mpr ⟨by rw [ha]; nofun, hfit.1⟩)]
    exact (HNSWIndex.contains_insert hx.rooted).mpr (.inl ⟨rfl, hfit.2.trans hx.dimension.symm⟩)

theorem contains_init (hx : x.Mirrors) {r : MemoryRecord F} (hr : x.store.lsm id = some r) (ha : r.isAlive = true)
    (hfit : x.store.Indexable r.embedding) (file : Option ℕ) {keys : List UInt64} (hid : id ∈ keys)
    (levels : UInt64 → ℕ) : (x.init file keys levels).index.contains id = true := by
  obtain ⟨before, after, rfl⟩ := List.append_of_mem hid
  show ((before ++ id :: after).foldl (Opened.reconcile levels) (x.onDisk file)).index.contains id = true
  rw [List.foldl_append, List.foldl_cons]
  have hbefore := hx.reconciled file before levels
  have hone : (Opened.reconcile levels (before.foldl (Opened.reconcile levels) (x.onDisk file)) id).index.contains id =
      true := by
    refine contains_reconciled hbefore hr ha ?_ levels
    rw [MemoryStore.Indexable, hbefore.config]
    exact hfit
  -- what is walked over afterwards leaves it there
  exact (List.foldlRecOn (motive := fun y => y.index.contains id = true ∧
      Opened.Loading x.store.config x.index.config x.store.lsm y) after (Opened.reconcile levels)
    ⟨hone, hbefore.reconcile levels id⟩ fun y hy i _ =>
      ⟨contains_reconcile hy.2 hy.1 levels i, hy.2.reconcile levels i⟩).1

/-- **A restart leaves every record, and puts into the index what is missing
there.** -/
theorem bears_reopen (hx : x.Sound) {file : Option ℕ} {keys : List UInt64} {levels : UInt64 → ℕ}
    (hw : x.Walks (.turn (.reopen file keys levels))) : Bears id x (x.act (.turn (.reopen file keys levels))) where
  config := Opened.config_act hx _
  shown := fun q hq ha => by
    have hshown := hx.shown_reopen file keys levels id
    refine ⟨q, hshown.symm.trans hq, ha, rfl, fun _ hfit => ?_⟩
    have hclosed : x.close.store.Coherent := hx.coherent.exec .flush
    have hconfig : x.close.store.config = x.store.config := (MemoryStore.settles_flushDirtyRecords x.store).config
    have hnames : ¬ x.store.Names .flush id := by rintro (h | h) <;> cases h
    have hq' : x.close.store.shown id = some q :=
      (hx.coherent.shown_exec_other hnames).trans (hshown.symm.trans hq)
    -- the record on disk is the one shown, but for what reading changes
    obtain ⟨r, hr, hv⟩ := Option.map_eq_some_iff.mp ((hclosed.stored id).trans hq')
    have halive : r.isAlive = true := (congrArg MemoryRecord.isAlive hv).trans ha
    have hembedding : r.embedding = q.embedding :=
      (congrArg (fun r => r.embedding) (hclosed.wired id r hr)).symm.trans (congrArg (fun r => r.embedding) hv)
    have hin := contains_init hx.toMirrors.close hr halive (by
      rw [MemoryStore.Indexable, hconfig, hembedding]
      exact hfit) file (hw id (Option.isSome_of_eq_some hr)) levels
    exact ((hx.reopen file keys levels).toMirrors.contains id).mp hin

end Opening

/-! ### Records that are in the index -/

section Indexed

variable {F D : Type}

/-- The record, if it is alive, is in the index with an embedding that fits. -/
def Indexed (s : MemoryStore F) (id : UInt64) : Prop :=
  ∀ r, s.shown id = some r → r.isAlive = true → s.hnsw id = true ∧ s.Indexable r.embedding

/-- It is, if it has an embedding. -/
def IndexedIfEmbedded (s : MemoryStore F) (id : UInt64) : Prop :=
  ∀ r, s.shown id = some r → r.isAlive = true → r.embedding ≠ [] → s.hnsw id = true ∧ s.Indexable r.embedding

theorem Indexed.ifEmbedded {s : MemoryStore F} {id : UInt64} (h : Indexed s id) : IndexedIfEmbedded s id :=
  fun r hr ha _ => h r hr ha

variable {x x' : Opened F} {id : UInt64}

theorem IndexedIfEmbedded.bears (h : IndexedIfEmbedded x.store id) (hb : Bears id x x') :
    IndexedIfEmbedded x'.store id := by
  intro r' hr' ha' hne
  obtain ⟨r, hr, ha, he, hin⟩ := hb.shown r' hr' ha'
  obtain ⟨hnsw, hfit⟩ := h r hr ha (he ▸ hne)
  refine ⟨hin hnsw hfit, ?_⟩
  unfold MemoryStore.Indexable at hfit ⊢
  rwa [hb.config, ← he]

theorem Indexed.bears (h : Indexed x.store id) (hb : Bears id x x') : Indexed x'.store id := by
  intro r' hr' ha'
  obtain ⟨r, hr, ha, he, -⟩ := hb.shown r' hr' ha'
  exact h.ifEmbedded.bears hb r' hr' ha' (he ▸ (h r hr ha).2.1)

theorem embedding_version [Zero F] {nf : Numbers F D} (hnf : nf.Lawful) (r : MemoryRecord F) :
    (version (wireOf nf hnf) r).embedding = r.embedding.take MAX_SIZE := by
  show (clip nf r.toBody).embedding = _
  rw [clip_eq hnf]
  split
  · unfold kept
    split
    · split <;> rfl
    · rfl
  · rfl

/-- It has one if the record it is a version of has. -/
theorem embedding_version_eq_nil [Zero F] {nf : Numbers F D} (hnf : nf.Lawful) {r : MemoryRecord F} :
    (version (wireOf nf hnf) r).embedding = [] ↔ r.embedding = [] := by
  rw [embedding_version, List.take_eq_nil_iff]
  exact or_iff_right (by decide)

variable [Floats F] {nf : Numbers F D} {hnf : nf.Lawful}

/-- **Setting an embedding that fits puts the record into the index.** -/
theorem indexed_setEmbedding (hx : x.Sound) (hw : x.store.config.wire = wireOf nf hnf) {v : List F}
    (hfit : x.store.Indexable v) (hlen : v.length ≤ MAX_SIZE) (level : ℕ) :
    Indexed (x.call (.setEmbedding id v) level).store id := by
  intro q hq _
  have hshown : after x.store.config.wire x.store.shown (x.store.wrote (.setEmbedding id v)) id = some q := by
    rw [← hx.coherent.shown_exec]
    exact hq
  rcases after_cases x.store.config.wire (x.store.wrote (.setEmbedding id v)) x.store.shown id with
    ⟨r, hr, he⟩ | ⟨hnone, he⟩
  · rw [he] at hshown
    cases MemoryStore.wrote_inv hr with
    | @embedded _ r₀ _ h₀ =>
      have hembedding : q.embedding = v := by
        rw [← Option.some.inj hshown, hw, embedding_version]
        exact List.take_of_length_le hlen
      refine ⟨(x.store.hnsw_exec _ id).mpr (.inl ?_), ?_⟩
      · exact if_pos ⟨Option.isSome_of_eq_some h₀, hfit.2⟩
      · rw [MemoryStore.Indexable, hembedding]
        exact ⟨hfit.1, hfit.2.trans (congrArg Config.embeddingDim (x.store.config_exec _).symm)⟩
  · -- there is no record
    rw [he] at hshown
    obtain ⟨r, hr, -⟩ := Option.map_eq_some_iff.mp hshown
    exact absurd (List.mem_map.mpr ⟨r, Option.mem_toList.mpr hr, rfl⟩) (hnone _)

/-- A record that was just captured has no embedding. -/
theorem ifEmbedded_capturing {p : Patterns} {half : F} {q : Request} {g : Given} (hx : x.Sound)
    (hw : x.store.config.wire = wireOf nf hnf) (h : (capturing p half x q g).2.bind Stored.id = some id) :
    IndexedIfEmbedded (capturing p half x q g).1.store id := by
  revert h
  unfold capturing
  split
  · exact fun h => by cases h
  · split
    · exact fun h => by cases h
    · intro h r hr _ hne
      have hid : (x.store.fastStore (newRecord half q) g.clock g.now).2.id = some id := h
      have hshown : after x.store.config.wire x.store.shown
          [(id, MemoryStore.prepared { newRecord half q with memoryId := id } g.now)] id = some r := by
        have hwrote : x.store.wrote (.fastStore (newRecord half q) g.clock g.now) =
            [(id, MemoryStore.prepared { newRecord half q with memoryId := id } g.now)] := by
          rw [MemoryStore.wrote, hid]
          rfl
        rw [← hwrote, ← hx.coherent.shown_exec]
        exact hr
      rw [after_one, if_pos rfl, hw] at hshown
      refine absurd ?_ hne
      rw [← Option.some.inj hshown, embedding_version_eq_nil, MemoryStore.embedding_prepared]
      rfl

end Indexed

/-! ### No refinement is lost -/

namespace World

variable {F D : Type}

/-- A worker has yet to look at the record, or is having its text embedded. -/
def Waiting (y : World F) (id : UInt64) : Prop :=
  (∃ task ∈ y.queued, task.memoryId = id) ∨
    ∃ task stage, (task, stage) ∈ y.running ∧ task.memoryId = id ∧ stage ≠ .refining

/-- A record that was answered and is not in the index is waiting, or could not be
embedded; and none that has an embedding is missing there. -/
structure Inv [Zero F] (nf : Numbers F D) (hnf : nf.Lawful) (y : World F) : Prop where
  sound : y.opened.Sound
  wire : y.opened.store.config.wire = wireOf nf hnf
  embedded : ∀ id, y.Tracked id → IndexedIfEmbedded y.opened.store id
  settled : ∀ id ∈ y.returned, y.Waiting id ∨ id ∈ y.unembedded ∨ Indexed y.opened.store id

variable [Floats F] {nf : Numbers F D} {hnf : nf.Lawful} {y y' : World F} {x : Opened F} {task : RefineTask}
  {stage : Stage} {next : Option Stage} {id : UInt64}

/-- The store goes on and leaves the records, or puts them into the index. -/
theorem Inv.opened (hy : Inv nf hnf y) (hx : x.Sound) (hc : x.store.config = y.opened.store.config)
    (hb : ∀ id, y.Tracked id → Bears id y.opened x ∨ Indexed x.store id) : Inv nf hnf { y with opened := x } where
  sound := hx
  wire := (congrArg Config.wire hc).trans hy.wire
  embedded := fun id ht => by
    rcases hb id ht with hb | hi
    · exact (hy.embedded id ht).bears hb
    · exact hi.ifEmbedded
  settled := fun id hr => by
    rcases hy.settled id hr with hw | hu | hi
    · exact .inl hw
    · exact .inr (.inl hu)
    · exact .inr (.inr ((hb id (.inl hr)).elim hi.bears fun h => h))

omit [Floats F] in
theorem mem_inFlight :
    task ∈ y.inFlight ↔ task ∈ y.pushing ∨ task ∈ y.queued ∨ ∃ stage, (task, stage) ∈ y.running := by
  simp [inFlight]

omit [Floats F] in
theorem tracked_of_inFlight (h : task ∈ y.inFlight) : y.Tracked task.memoryId := .inr (List.mem_map_of_mem h)

/-- The store is left as it is, and no refinement comes out of nothing. -/
theorem Inv.told (hy : Inv nf hnf y) (ho : y'.opened = y.opened)
    (hf : ∀ task ∈ y'.inFlight, task ∈ y.inFlight ∨ IndexedIfEmbedded y.opened.store task.memoryId)
    (hr : ∀ id ∈ y'.returned, y.Tracked id)
    (hs : ∀ id ∈ y'.returned, y'.Waiting id ∨ id ∈ y'.unembedded ∨ Indexed y.opened.store id) : Inv nf hnf y' where
  sound := ho ▸ hy.sound
  wire := ho ▸ hy.wire
  embedded := fun id h => by
    rw [ho]
    rcases h with h | h
    · exact hy.embedded id (hr id h)
    · obtain ⟨task, ht, rfl⟩ := List.mem_map.mp h
      exact (hf task ht).elim (fun ht => hy.embedded _ (tracked_of_inFlight ht)) fun h => h
  settled := fun id h => by
    rw [ho]
    exact hs id h

omit [Floats F] in
theorem Waiting.mono (h : y.Waiting id) (hq : ∀ task ∈ y.queued, task ∈ y'.queued)
    (hr : ∀ e ∈ y.running, e ∈ y'.running) : y'.Waiting id := by
  rcases h with ⟨task, ht, he⟩ | ⟨task, stage, hm, h⟩
  · exact .inl ⟨task, hq task ht, he⟩
  · exact .inr ⟨task, stage, hr _ hm, h⟩

/-- A worker that goes on with its task: its record is still waited for, or else
is settled. -/
theorem Inv.moved (hy : Inv nf hnf y) (hm : (task, stage) ∈ y.running)
    (hs : stage ≠ .refining → (∃ s ∈ next, s ≠ Stage.refining) ∨ task.memoryId ∈ y.unembedded ∨
      Indexed y.opened.store task.memoryId) : Inv nf hnf (y.moved task stage next) := by
  have hmem : ∀ e, e ∈ (y.moved task stage next).running ↔
      (∃ s ∈ next, e = (task, s)) ∨ e ∈ y.running.erase (task, stage) := by
    intro e
    show e ∈ (next.toList.map fun stage => (task, stage)) ++ y.running.erase (task, stage) ↔ _
    rw [List.mem_append, List.mem_map]
    simp only [Option.mem_toList, Option.mem_def, eq_comm (b := e)]
  refine hy.told rfl (fun t ht => .inl ?_) (fun _ hr => .inl hr) fun id hr => ?_
  · refine mem_inFlight.mpr ((mem_inFlight.mp ht).imp_right fun h => h.imp_right ?_)
    rintro ⟨s, hrun⟩
    rcases (hmem _).mp hrun with ⟨s', -, he⟩ | herase
    · exact ⟨stage, (Prod.mk.inj he).1 ▸ hm⟩
    · exact ⟨s, List.mem_of_mem_erase herase⟩
  · rcases hy.settled id hr with hw | hsettled
    · rcases hw with hq | ⟨t, s, hrun, rfl, hne⟩
      · exact .inl (.inl hq)
      · by_cases he : (t, s) = (task, stage)
        · obtain ⟨rfl, rfl⟩ := Prod.mk.inj he
          rcases hs hne with ⟨s', hs', hne'⟩ | h
          · exact .inl (.inr ⟨t, s', (hmem _).mpr (.inl ⟨s', hs', rfl⟩), rfl, hne'⟩)
          · exact .inr h
        · exact .inl (.inr ⟨t, s, (hmem _).mpr (.inr ((List.mem_erase_of_ne he).mpr hrun)), rfl, hne⟩)
    · exact .inr hsettled

omit [Floats F] in
theorem queued_append {q : TaskQueue AsyncTask} {t : AsyncTask} (h : q.queue = y.queue.queue ++ [t]) :
    ({ y with queue := q } : World F).queued = y.queued ++ [t].filterMap refinement := by
  unfold queued
  rw [← List.filterMap_append, ← h]

omit [Floats F] in
theorem queued_cons {q : TaskQueue AsyncTask} {t : AsyncTask} (h : y.queue.queue = t :: q.queue) :
    y.queued = [t].filterMap refinement ++ ({ y with queue := q } : World F).queued := by
  unfold queued
  rw [h, ← List.filterMap_append]
  rfl

/-- A push that is not given up puts the task into the queue before it answers. -/
theorem Inv.pushed (hy : Inv nf hnf y) (hm : task ∈ y.pushing) {q : TaskQueue AsyncTask}
    (hq : q.queue = y.queue.queue ++ [.refine task]) :
    Inv nf hnf { y with queue := q, pushing := y.pushing.erase task, returned := task.memoryId :: y.returned } := by
  have hqueued : ({ y with queue := q } : World F).queued = y.queued ++ [task] := queued_append hq
  refine hy.told rfl (fun t ht => .inl ?_) (fun id hr => ?_) fun id hr => ?_
  · rcases mem_inFlight.mp ht with hp | hin | hrun
    · exact mem_inFlight.mpr (.inl (List.mem_of_mem_erase hp))
    · have hin : t ∈ y.queued ++ [task] := hqueued ▸ hin
      rcases List.mem_append.mp hin with hin | hin
      · exact mem_inFlight.mpr (.inr (.inl hin))
      · exact mem_inFlight.mpr (.inl (List.mem_singleton.mp hin ▸ hm))
    · exact mem_inFlight.mpr (.inr (.inr hrun))
  · rcases List.mem_cons.mp hr with rfl | hr
    · exact tracked_of_inFlight (mem_inFlight.mpr (.inl hm))
    · exact .inl hr
  · have hsub : ∀ t ∈ y.queued ++ [task], t ∈ ({ y with queue := q } : World F).queued := fun t ht => hqueued ▸ ht
    rcases List.mem_cons.mp hr with rfl | hr
    · exact .inl (.inl ⟨task, hsub task (List.mem_append_right _ (List.mem_singleton_self task)), rfl⟩)
    · exact (hy.settled id hr).imp_left fun h => h.mono (fun t ht => hsub t (List.mem_append_left _ ht)) fun _ h => h

/-- A worker has the task that it took from the queue. -/
theorem Inv.popped (hy : Inv nf hnf y) {q : TaskQueue AsyncTask} (hq : y.queue.queue = .refine task :: q.queue) :
    Inv nf hnf { y with queue := q, running := (task, .popped) :: y.running } := by
  have hqueued : y.queued = task :: ({ y with queue := q } : World F).queued := queued_cons hq
  refine hy.told rfl (fun t ht => .inl ?_) (fun _ hr => .inl hr) fun id hr => ?_
  · rcases mem_inFlight.mp ht with hp | hin | ⟨s, hrun⟩
    · exact mem_inFlight.mpr (.inl hp)
    · exact mem_inFlight.mpr (.inr (.inl (hqueued ▸ List.mem_cons_of_mem _ hin)))
    · rcases List.mem_cons.mp hrun with he | hrun
      · cases he
        exact mem_inFlight.mpr (.inr (.inl (hqueued ▸ List.mem_cons_self)))
      · exact mem_inFlight.mpr (.inr (.inr ⟨s, hrun⟩))
  · refine (hy.settled id hr).imp_left fun h => ?_
    rcases h with ⟨t, ht, rfl⟩ | ⟨t, s, hrun, h⟩
    · rw [hqueued] at ht
      rcases List.mem_cons.mp ht with rfl | ht
      · exact .inr ⟨t, .popped, List.mem_cons_self, rfl, by decide⟩
      · exact .inl ⟨t, ht, rfl⟩
    · exact .inr ⟨t, s, List.mem_cons_of_mem _ hrun, h⟩

/-- The queue holds the same refinements. -/
theorem Inv.requeued (hy : Inv nf hnf y) {q : TaskQueue AsyncTask}
    (hq : ({ y with queue := q } : World F).queued = y.queued) : Inv nf hnf { y with queue := q } := by
  refine hy.told rfl (fun t ht => .inl ?_) (fun _ hr => .inl hr) fun id hr => ?_
  · exact mem_inFlight.mpr ((mem_inFlight.mp ht).imp_right fun h => h.imp_left fun h => hq ▸ h)
  · exact (hy.settled id hr).imp_left fun h => h.mono (fun t ht => hq ▸ ht) fun _ h => h

theorem Inv.goes (hy : Inv nf hnf y) {stored : Option UInt64} (hg : Goes y.opened x stored)
    (hn : ∀ id ∈ stored, ¬ y.Tracked id) : Inv nf hnf { y with opened := x } :=
  hy.opened hg.sound hg.config fun id ht => .inl (hg.bears id fun he => hn id he ht)

theorem Inv.capture {p : Patterns} {half : F} (hy : Inv nf hnf y) {q : Request} {g : Given} {flightKey : UInt64}
    {preExtracted : Bool} (hk : y.Keeps p half (.capture q g flightKey preExtracted)) :
    Inv nf hnf (y.step p half (.capture q g flightKey preExtracted)) := by
  have hgoes := hy.goes (goes_capturing hy.sound p half q g) hk
  unfold step
  dsimp only
  split
  · rename_i id hid
    refine hgoes.told rfl (fun t ht => ?_) (fun _ hr => .inl hr) fun i hr => ?_
    · rcases mem_inFlight.mp ht with hp | h
      · rcases List.mem_append.mp hp with hp | hp
        · exact .inl (mem_inFlight.mpr (.inl hp))
        · cases List.mem_singleton.mp hp
          exact .inr (ifEmbedded_capturing hy.sound hy.wire hid)
      · exact .inl (mem_inFlight.mpr (.inr h))
    · exact (hgoes.settled i hr).imp_left fun h => h.mono (fun _ h => h) fun _ h => h
  · exact hgoes

/-- The worker goes on to the embedding if there is none. If there is one, the
record is in the index. -/
theorem Inv.peek {p : Patterns} {half : F} (hy : Inv nf hnf y) (task : RefineTask) :
    Inv nf hnf (y.step p half (.peek task)) := by
  unfold step
  dsimp only
  split
  · rename_i hm
    refine hy.moved hm fun _ => ?_
    cases hl : y.opened.store.load task.memoryId with
    | none =>
      have hnone : y.opened.store.shown task.memoryId = none := by rw [MemoryStore.shown, hl]; rfl
      exact .inr (.inr fun q hq => by cases hnone.symm.trans hq)
    | some r =>
      by_cases he : r.embedding = []
      · exact .inl ⟨.embedding, congrArg some (if_pos he), by decide⟩
      · refine .inr (.inr fun q hq ha => ?_)
        have htracked : y.Tracked task.memoryId := tracked_of_inFlight (mem_inFlight.mpr (.inr (.inr ⟨_, hm⟩)))
        refine hy.embedded _ htracked q hq ha ?_
        rw [MemoryStore.shown, hl, hy.wire] at hq
        rw [← Option.some.inj hq]
        exact fun h => he ((embedding_version_eq_nil hnf).mp h)
  · exact hy

theorem Inv.embed {p : Patterns} {half : F} (hy : Inv nf hnf y) {answer : Answer F} {level : ℕ}
    (hk : y.Keeps p half (.embed task answer level)) : Inv nf hnf (y.step p half (.embed task answer level)) := by
  unfold step
  dsimp only
  split
  · rename_i hm
    have hk := hk hm
    cases answer with
    | ok v =>
      obtain ⟨hfit, hlen⟩ := hk
      have hset : Indexed (y.opened.call (.setEmbedding task.memoryId v) level).store task.memoryId :=
        indexed_setEmbedding hy.sound hy.wire hfit hlen level
      have hopened : Inv nf hnf { y with opened := y.opened.call (.setEmbedding task.memoryId v) level } := by
        refine hy.opened (hy.sound.step (.call _ level)) (y.opened.store.config_exec _) fun id _ => ?_
        by_cases he : id = task.memoryId
        · exact .inr (he ▸ hset)
        · refine .inl (bears_call hy.sound ?_ fun h => by cases h)
          rintro (h | h)
          · exact he (Option.some.inj h).symm
          · cases h
      exact hopened.moved hm fun _ => .inr (.inr hset)
    | error =>
      have htold : Inv nf hnf { y with unembedded := task.memoryId :: y.unembedded } :=
        hy.told rfl (fun _ ht => .inl ht) (fun _ hr => .inl hr) fun id hr =>
          (hy.settled id hr).imp_right fun h => h.imp_left (List.mem_cons_of_mem _)
      exact htold.moved hm fun _ => .inr (.inl List.mem_cons_self)
    | thrown => exact hk.elim
  · exact hy

/-- With nothing queued or running, closing and opening the store loses no
refinement. -/
theorem Inv.restart {p : Patterns} {half : F} (hy : Inv nf hnf y) {file : Option ℕ} {keys : List UInt64}
    {levels : UInt64 → ℕ} (hw : y.Walks (.restart file keys levels)) (hk : y.Keeps p half (.restart file keys levels)) :
    Inv nf hnf (y.step p half (.restart file keys levels)) := by
  unfold step
  dsimp only
  split
  · rename_i hstopped
    obtain ⟨hstop, hidle⟩ := hstopped
    have hqueued : y.queued = [] := hk hstop hidle
    have hopened : Inv nf hnf { y with opened := y.opened.act (.turn (.reopen file keys levels)) } :=
      hy.opened (hy.sound.act _) (Opened.config_act hy.sound _) fun id _ => .inl (bears_reopen hy.sound hw)
    refine hopened.told rfl (fun t ht => ?_) (fun _ hr => .inl hr) fun id hr => ?_
    · rcases mem_inFlight.mp ht with h | h | ⟨s, h⟩ <;> cases h
    · rcases hopened.settled id hr with (⟨t, ht, -⟩ | ⟨t, s, hrun, -⟩) | h
      · have ht : t ∈ y.queued := ht
        rw [hqueued] at ht
        cases ht
      · have hrun : (t, s) ∈ y.running := hrun
        rw [hidle] at hrun
        cases hrun
      · exact .inr h
  · exact hy

/-- **No step loses a refinement.** -/
theorem Inv.step {p : Patterns} {half : F} (hy : Inv nf hnf y) {e : Event F} (hw : y.Walks e)
    (hk : y.Keeps p half e) : Inv nf hnf (y.step p half e) := by
  cases e with
  | capture q g flightKey preExtracted => exact hy.capture hk
  | push task timedOut =>
    unfold World.step
    dsimp only
    split
    · rename_i hm
      have hk := hk hm
      cases hpush : y.queue.push (.refine task) timedOut with
      | none => exact hy
      | some result =>
        cases result with
        | ok q => exact hy.pushed hm (TaskQueue.queue_of_push hpush)
        | error e => cases hk _ hpush
    · exact hy
  | pushOther timedOut =>
    unfold World.step
    dsimp only
    split
    · rename_i q hpush
      exact hy.requeued ((queued_append (TaskQueue.queue_of_push hpush)).trans (List.append_nil _))
    · exact hy
  | pop =>
    unfold World.step
    dsimp only
    split
    · rename_i task q hpop
      exact hy.popped (TaskQueue.queue_of_pop hpop)
    · rename_i q hpop
      exact hy.requeued (queued_cons (TaskQueue.queue_of_pop hpop)).symm
    · exact hy
  | peek task => exact hy.peek task
  | embed task answer level => exact hy.embed hk
  | finish task threw =>
    unfold World.step
    dsimp only
    split
    · rename_i hm
      exact hy.moved hm fun h => absurd rfl h
    · exact hy
  | derived rawMemoryId agentId userId c v g level =>
    exact hy.goes (goes_processing hy.sound half rawMemoryId agentId userId c v g level) hk
  | remove id =>
    exact hy.opened (hy.sound.step (.call _ 0)) (y.opened.store.config_exec _) fun _ _ =>
      .inl (bears_remove hy.sound id 0)
  | boost id delta =>
    exact hy.opened (hy.sound.step (.call _ 0)) (y.opened.store.config_exec _) fun _ _ =>
      .inl (bears_boost hy.sound id delta 0)
  | get id now =>
    exact hy.opened (hy.sound.act _) (Opened.config_act hy.sound _) fun _ _ => .inl (bears_get y.opened id now)
  | flush =>
    exact hy.opened (hy.sound.step (.call _ 0)) (y.opened.store.config_exec _) fun _ _ =>
      .inl (bears_call hy.sound (by rintro (h | h) <;> cases h) fun h => by cases h)
  | stop => exact hy.requeued rfl
  | restart file keys levels => exact hy.restart hw hk

theorem inv_start (hnf : nf.Lawful) (c : Memory.Config F) (h : HNSWConfig F) (capacity : ℕ) :
    Inv nf hnf (start { c with wire := wireOf nf hnf } h capacity) where
  sound := Opened.sound_start _ h
  wire := rfl
  embedded := fun id ht => by
    rcases ht with ht | ht <;> cases ht
  settled := fun id hr => by cases hr

/-- Once no refinement is queued or running, what was captured is in the index. -/
theorem Inv.found (hy : Inv nf hnf y) (hq : y.Quiet) : y.Found := by
  intro id hr r hpeek ha
  rcases hy.settled id hr with (⟨t, ht, -⟩ | ⟨t, s, hrun, -⟩) | hu | hi
  · rw [hq.1] at ht
    cases ht
  · rw [hq.2] at hrun
    cases hrun
  · exact .inr hu
  · have hl : y.opened.store.load id = some r := (shows_iff.mp ⟨hpeek, ha⟩).1
    have hshown : y.opened.store.shown id = some (version y.opened.store.config.wire r) := by
      rw [MemoryStore.shown, hl]
      rfl
    exact .inl ((hy.sound.contains id).mpr (hi _ hshown ha).1)

end World

/-- The id of the first capture. -/
def firstId : UInt64 := SnowflakeGenerator.pack 1735689600001 0 0

def firstTask : RefineTask := ⟨firstId, firstId, 0, false⟩

/-- Something is captured in the first millisecond. -/
def captureOne : Event UInt32 :=
  .capture ⟨Utf8.bytes "likes green tea", Utf8.bytes "ann", [], .private, .ephemeral, .empty⟩ ⟨[], [1735689600001], 7⟩ 0
    false

/-- It is embedded, and the store is closed and opened without an index file. -/
def embedOne : List (Event UInt32) :=
  [captureOne, .push firstTask false, .pop, .peek firstTask, .embed firstTask (.ok [0x3F000000]) 0,
    .finish firstTask false, .stop, .restart none [firstId] fun _ => 0]

theorem keeps_embedOne : Along (World.step .silent 0x3F000000) (World.Keeps .silent 0x3F000000)
    (World.start fourCached plain 1) embedOne := by
  decide

theorem walks_embedOne :
    Along (World.step .silent 0x3F000000) World.Walks (World.start fourCached plain 1) embedOne := by
  refine ⟨trivial, trivial, trivial, trivial, trivial, trivial, trivial, fun id hid => ?_, trivial⟩
  -- what is on disk was captured, or was there before
  have hstored : ((((MemoryStore.new fourCached).exec (.fastStore (newRecord 0x3F000000 ⟨Utf8.bytes "likes green tea",
      Utf8.bytes "ann", [], .private, .ephemeral, .empty⟩) [1735689600001] 7)).exec
      (.setEmbedding firstId [0x3F000000])).exec .flush).contains id = true := MemoryStore.contains_iff.mpr (.inr hid)
  rcases MemoryStore.contains_exec hstored with h | h
  · rcases MemoryStore.contains_exec h with h | h
    · rcases MemoryStore.contains_exec h with h | h
      · rcases MemoryStore.contains_iff.mp h with h | h <;> cases h
      · have hone : some firstId = some id := h
        exact List.mem_singleton.mpr (Option.some.inj hone).symm
    · cases h
  · cases h

/-- Tables are merged after that with no change. -/
def embedOneMerged : List (Paused (Event UInt32) (Answers UInt32)) :=
  embedOne.map .op ++
    [.pause (run (World.step .silent 0x3F000000) (World.start fourCached plain 1) embedOne).opened.store.lsm]

/-- The push of its refinement is given up. -/
def pushGivenUp : List (Event UInt32) := [.pushOther false, captureOne, .push firstTask true]

/-- The embedder throws. -/
def embedderThrows : List (Event UInt32) :=
  [captureOne, .push firstTask false, .pop, .peek firstTask, .embed firstTask .thrown 0]

/-- The workers end before they come to the task, and the store is opened again. -/
def leftQueued : List (Event UInt32) :=
  [captureOne, .push firstTask false, .stop, .restart (some 0) [firstId] fun _ => 0]

theorem not_found_of {F : Type} {y : World F} {id : UInt64} (hid : id ∈ y.returned)
    (ha : (y.opened.store.load id).any MemoryRecord.isAlive = true) (hin : y.opened.index.contains id = false)
    (hu : id ∉ y.unembedded) : ¬ y.Found := by
  intro hf
  obtain ⟨r, hr, ha⟩ := (Option.any_eq_true _ _).mp ha
  rcases hf id hid r (shows_iff.mpr ⟨hr, ha⟩).1 ha with h | h
  · rw [hin] at h
    cases h
  · exact hu h

/-- The state after a run. -/
def atEnd (es : List (Event UInt32)) : World UInt32 :=
  run (pausing (World.step .silent 0x3F000000) World.settle) (World.start fourCached plain 1) (es.map .op)

end Refinement
end Capture
end Amind
