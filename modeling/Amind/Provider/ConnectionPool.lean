/-
# The connections of the pool

A request of the HTTP client takes a slot, then a pooled connection to its peer or a new
one, and gives both back, or closes the connection. The slot goes first and the
connection after it, each under a lock of its own, so other requests run in between. A
request that gets no slot in time, or whose connection cannot be made, is told so, and
connects on its own: it has no slot, and gives one back all the same.

Whatever the order of the steps, a connection is pooled or used by one request, and
closed once; the pool keeps its size; and the requests with a slot are as many as the
limit, and as many as slots were given back that were not had (`pool_run`). Once these
are more than the requests with a slot, the count has wrapped, and no request gets a
slot any more (`lockedOut_run`).
-/
import Amind.Core.MemoryRecord
import Amind.Lib.Parties
import Amind.Lib.Run
import Amind.Provider.CircuitBreaker

namespace Amind
namespace Provider
namespace ConnectionPool

open Amind.Core
open Run (run Along)

structure PooledConnection where
  fd : ℕ
  host : Text
  port : ℤ
  lastUsed : TimePoint

/-- The fields of the configuration that are read here. -/
structure Limits where
  maxConnections : UInt64 := 8
  maxActiveConnections : UInt64 := 8
  idleTimeoutMs : UInt64 := 30000

/-- What a request is at. -/
inductive Phase
  | idle
  /-- In `acquire`, without a slot. -/
  | waiting (host : Text) (port : ℤ)
  /-- In `acquire`, with a slot. -/
  | looking (host : Text) (port : ℤ)
  /-- None was pooled: a connection is made. -/
  | creating (host : Text) (port : ℤ)
  /-- `acquire` returned an error: the client connects on its own. -/
  | connecting (host : Text) (port : ℤ)
  /-- The request is sent and answered. -/
  | exchanging (fd : ℕ) (host : Text) (port : ℤ) (slot : Bool)
  /-- In `release`, the slot is given back. -/
  | releasing (fd : ℕ) (host : Text) (port : ℤ)
  /-- In `discard`, the slot is given back. -/
  | discarding (fd : ℕ)

namespace Phase

def hasSlot : Phase → ℕ
  | .looking .. | .creating .. | .exchanging _ _ _ true => 1
  | _ => 0

/-- Whether a connection is that of the request. -/
def holds (fd : ℕ) : Phase → ℕ
  | .exchanging fd' .. | .releasing fd' .. | .discarding fd' => if fd' = fd then 1 else 0
  | _ => 0

end Phase

/-- The pool, its requests, and what was done so far: the connections that were opened
and closed, and how many slots were given back that were not had. -/
structure Pool where
  pool : List PooledConnection := []
  activeCount : UInt64 := 0
  requests : List Phase
  opened : List ℕ := []
  closed : List ℕ := []
  overdrawn : ℕ := 0

inductive Action
  | start (i : ℕ) (host : Text) (port : ℤ)
  | takeSlot (i : ℕ)
  | timeOut (i : ℕ)
  | look (i : ℕ)
  | created (i fd : ℕ)
  | notCreated (i : ℕ)
  | connected (i fd : ℕ)
  | notConnected (i : ℕ)
  /-- The first step of `release`, and of `discard`. -/
  | giveBack (i : ℕ) (keep : Bool)
  /-- The second. -/
  | finish (i : ℕ) (now : TimePoint)
  | evictIdle (now : TimePoint)

namespace Pool

/-- A request goes on to another phase. -/
def become (s : Pool) (i : ℕ) (p : Phase) : Pool := { s with requests := s.requests.set i p }

/-- How often a connection is pooled or used. -/
def owners (s : Pool) (fd : ℕ) : ℕ := (s.pool.map PooledConnection.fd).count fd + (s.requests.map (Phase.holds fd)).sum

/-- How many requests have a slot. -/
def slots (s : Pool) : ℕ := (s.requests.map Phase.hasSlot).sum

/-- A connection was not idle for longer than the timeout. -/
def Fresh (c : Limits) (now : TimePoint) (conn : PooledConnection) : Prop :=
  ¬ c.idleTimeoutMs < UInt64.ofInt (now.msSince conn.lastUsed)

instance (c : Limits) (now : TimePoint) (conn : PooledConnection) : Decidable (Fresh c now conn) :=
  inferInstanceAs (Decidable (¬ _))

/-- A new connection has a descriptor that is not in use. -/
def Unused (s : Pool) (fd : ℕ) : Prop := s.owners fd = 0

instance (s : Pool) (fd : ℕ) : Decidable (s.Unused fd) := inferInstanceAs (Decidable (_ = _))

/-- What a step comes to. One that is not possible changes nothing. -/
def step (c : Limits) (s : Pool) : Action → Pool
  | .start i host port =>
    match s.requests[i]? with
    | some .idle => s.become i (.waiting host port)
    | _ => s
  | .takeSlot i =>
    match s.requests[i]? with
    | some (.waiting host port) =>
      if s.activeCount < c.maxActiveConnections then
        { s.become i (.looking host port) with activeCount := s.activeCount + 1 }
      else s
    | _ => s
  | .timeOut i =>
    match s.requests[i]? with
    | some (.waiting host port) =>
      if s.activeCount < c.maxActiveConnections then s else s.become i (.connecting host port)
    | _ => s
  | .look i =>
    match s.requests[i]? with
    | some (.looking host port) =>
      match s.pool.findIdx? fun conn => conn.host = host ∧ conn.port = port with
      | some k =>
        match s.pool[k]? with
        | some conn => { s.become i (.exchanging conn.fd host port true) with pool := s.pool.eraseIdx k }
        | none => s
      | none => s.become i (.creating host port)
    | _ => s
  | .created i fd =>
    match s.requests[i]? with
    | some (.creating host port) =>
      if s.Unused fd then { s.become i (.exchanging fd host port true) with opened := fd :: s.opened } else s
    | _ => s
  | .notCreated i =>
    match s.requests[i]? with
    | some (.creating host port) => { s.become i (.connecting host port) with activeCount := s.activeCount - 1 }
    | _ => s
  | .connected i fd =>
    match s.requests[i]? with
    | some (.connecting host port) =>
      if s.Unused fd then { s.become i (.exchanging fd host port false) with opened := fd :: s.opened } else s
    | _ => s
  | .notConnected i =>
    match s.requests[i]? with
    | some (.connecting _ _) => s.become i .idle
    | _ => s
  | .giveBack i keep =>
    match s.requests[i]? with
    | some (.exchanging fd host port slot) =>
      { s.become i (if keep then .releasing fd host port else .discarding fd) with
        activeCount := s.activeCount - 1
        overdrawn := s.overdrawn + if slot then 0 else 1 }
    | _ => s
  | .finish i now =>
    match s.requests[i]? with
    | some (.releasing fd host port) =>
      if c.maxConnections.toNat ≤ s.pool.length then { s.become i .idle with closed := fd :: s.closed }
      else { s.become i .idle with pool := s.pool ++ [⟨fd, host, port, now⟩] }
    | some (.discarding fd) => { s.become i .idle with closed := fd :: s.closed }
    | _ => s
  | .evictIdle now =>
    { s with
      pool := s.pool.filter (Fresh c now ·)
      closed := (s.pool.filter (¬ Fresh c now ·)).map PooledConnection.fd ++ s.closed }

end Pool

/-- A pool that was made for some requests. -/
def start (n : ℕ) : Pool where
  requests := List.replicate n .idle

/-! ### What a request counts for -/

section Counts

variable {s : Pool} {i : ℕ} {x : Phase}

theorem owners_become (h : s.requests[i]? = some x) (y : Phase) (fd : ℕ) :
    (s.become i y).owners fd + x.holds fd = s.owners fd + y.holds fd := by
  have hsum := Parties.sum_set (Phase.holds fd) h y
  unfold Pool.owners Pool.become
  dsimp only
  omega

theorem slots_become (h : s.requests[i]? = some x) (y : Phase) :
    (s.become i y).slots + x.hasSlot = s.slots + y.hasSlot :=
  Parties.sum_set Phase.hasSlot h y

end Counts

/-! ### Connections -/

/-- What holds of connections in every run. -/
structure Kept (c : Limits) (s : Pool) : Prop where
  owned : ∀ fd, s.owners fd ≤ 1
  closes : ∀ fd, s.opened.count fd = s.closed.count fd + s.owners fd
  pooled : s.pool.length ≤ c.maxConnections.toNat

section Connections

variable {c : Limits} {s : Pool}

/-- Connections that go from hand to hand, or are closed. -/
theorem Kept.pass (hs : Kept c s) {s' : Pool} (hopened : s'.opened = s.opened)
    (hsum : ∀ fd, s'.closed.count fd + s'.owners fd = s.closed.count fd + s.owners fd)
    (hclosed : ∀ fd, s.closed.count fd ≤ s'.closed.count fd) (hlen : s'.pool.length ≤ c.maxConnections.toNat) :
    Kept c s' where
  owned fd := by
    have hone := hs.owned fd
    have hall := hsum fd
    have hmore := hclosed fd
    omega
  closes fd := by
    rw [hopened, hs.closes fd, hsum fd]
  pooled := hlen

/-- A new connection is that of the request that made it. -/
theorem Kept.opens (hs : Kept c s) {i fd : ℕ} {x y : Phase} (h : s.requests[i]? = some x) (hfd : s.Unused fd)
    (hx : ∀ fd', x.holds fd' = 0) (hy : ∀ fd', y.holds fd' = if fd = fd' then 1 else 0) :
    Kept c { s.become i y with opened := fd :: s.opened } where
  owned fd' := by
    have hown := owners_become h y fd'
    have hone := hs.owned fd'
    rw [hx, hy] at hown
    change (s.become i y).owners fd' ≤ 1
    split at hown
    · subst fd'
      unfold Pool.Unused at hfd
      omega
    · omega
  closes fd' := by
    have hown := owners_become h y fd'
    have hclose := hs.closes fd'
    rw [hx, hy] at hown
    change (fd :: s.opened).count fd' = s.closed.count fd' + (s.become i y).owners fd'
    rw [List.count_cons, hclose]
    simp only [beq_iff_eq]
    omega
  pooled := hs.pooled

/-- A request goes on, and connections with it. -/
theorem Kept.become (hs : Kept c s) {i : ℕ} {x y : Phase} (h : s.requests[i]? = some x)
    {pool : List PooledConnection} {closed : List ℕ} (n : UInt64) (k : ℕ)
    (hsum : ∀ fd, closed.count fd + (pool.map PooledConnection.fd).count fd + y.holds fd
      = s.closed.count fd + (s.pool.map PooledConnection.fd).count fd + x.holds fd)
    (hclosed : ∀ fd, s.closed.count fd ≤ closed.count fd) (hlen : pool.length ≤ c.maxConnections.toNat) :
    Kept c { s.become i y with pool := pool, activeCount := n, closed := closed, overdrawn := k } := by
  refine hs.pass rfl (fun fd => ?_) hclosed hlen
  have hrequests := Parties.sum_set (Phase.holds fd) h y
  have hall := hsum fd
  unfold Pool.owners Pool.become
  dsimp only
  omega

theorem kept_start (c : Limits) (n : ℕ) : Kept c (start n) := by
  have hnone (fd : ℕ) : (start n).owners fd = 0 := by
    unfold Pool.owners start
    simp [Phase.holds]
  refine ⟨fun fd => ?_, fun fd => ?_, Nat.zero_le _⟩
  · rw [hnone]
    exact Nat.zero_le 1
  · rw [hnone]
    rfl

/-- What `look` takes is as much as it leaves less. -/
theorem count_eraseIdx (fd : ℕ) : ∀ {l : List PooledConnection} {k : ℕ} {conn : PooledConnection},
    l[k]? = some conn →
      ((l.eraseIdx k).map PooledConnection.fd).count fd + (if conn.fd = fd then 1 else 0)
        = (l.map PooledConnection.fd).count fd
  | [], _, _, h => by cases h
  | p :: l, 0, conn, h => by
    obtain rfl := Option.some.inj h
    simp [List.count_cons]
  | p :: l, k + 1, conn, h => by
    have ih := @count_eraseIdx fd l k conn h
    rw [List.eraseIdx_cons_succ, List.map_cons, List.map_cons, List.count_cons, List.count_cons]
    omega

theorem kept_look (hs : Kept c s) (i : ℕ) : Kept c (s.step c (.look i)) := by
  dsimp only [Pool.step]
  split
  case h_2 => exact hs
  case h_1 host port h =>
  split
  case h_2 =>
    exact hs.become h s.activeCount s.overdrawn (fun fd => rfl) (fun _ => le_rfl) hs.pooled
  case h_1 k _ =>
  split
  case h_2 => exact hs
  case h_1 conn hconn =>
  refine hs.become h s.activeCount s.overdrawn (fun fd => ?_) (fun _ => le_rfl) ?_
  · have htake := count_eraseIdx fd hconn
    dsimp only [Phase.holds, Pool.become]
    omega
  · exact (List.length_eraseIdx_le ..).trans hs.pooled

theorem kept_finish (hs : Kept c s) (i : ℕ) (now : TimePoint) : Kept c (s.step c (.finish i now)) := by
  dsimp only [Pool.step]
  split
  · rename_i fd host port h
    split
    · refine hs.become h s.activeCount s.overdrawn (fun fd' => ?_) (fun fd' => List.count_le_count_cons) hs.pooled
      simp only [List.count_cons, Phase.holds, Pool.become, beq_iff_eq]
      omega
    · rename_i hroom
      refine hs.become h s.activeCount s.overdrawn (fun fd' => ?_) (fun _ => le_rfl) ?_
      · simp only [List.map_append, List.map_cons, List.map_nil, List.count_append, List.count_singleton,
          Phase.holds, Pool.become, beq_iff_eq]
        omega
      · rw [List.length_append, List.length_singleton]
        omega
  · rename_i fd h
    refine hs.become h s.activeCount s.overdrawn (fun fd' => ?_) (fun fd' => List.count_le_count_cons) hs.pooled
    simp only [List.count_cons, Phase.holds, Pool.become, beq_iff_eq]
    omega
  · exact hs

theorem count_filter_add (f : PooledConnection → ℕ) (p : PooledConnection → Prop) [DecidablePred p] (fd : ℕ)
    (l : List PooledConnection) :
    ((l.filter (¬ p ·)).map f).count fd + ((l.filter (p ·)).map f).count fd = (l.map f).count fd := by
  induction l with
  | nil => rfl
  | cons a l ih =>
    by_cases ha : p a <;> simp [ha, List.count_cons] at ih ⊢ <;> omega

theorem kept_evictIdle (hs : Kept c s) (now : TimePoint) : Kept c (s.step c (.evictIdle now)) := by
  refine hs.pass rfl (fun fd => ?_) (fun fd => ?_) ((List.length_filter_le ..).trans hs.pooled)
  · have hparts := count_filter_add PooledConnection.fd (Pool.Fresh c now) fd s.pool
    dsimp only [Pool.step, Pool.owners]
    rw [List.count_append]
    omega
  · dsimp only [Pool.step]
    rw [List.count_append]
    omega

theorem kept_step (hs : Kept c s) (a : Action) : Kept c (s.step c a) := by
  cases a with
  | look i => exact kept_look hs i
  | finish i now => exact kept_finish hs i now
  | evictIdle now => exact kept_evictIdle hs now
  | start i host port =>
    dsimp only [Pool.step]
    split
    · rename_i h
      exact hs.become h s.activeCount s.overdrawn (fun _ => rfl) (fun _ => le_rfl) hs.pooled
    · exact hs
  | takeSlot i =>
    dsimp only [Pool.step]
    split
    · rename_i h
      split
      · exact hs.become h (s.activeCount + 1) s.overdrawn (fun _ => rfl) (fun _ => le_rfl) hs.pooled
      · exact hs
    · exact hs
  | timeOut i =>
    dsimp only [Pool.step]
    split
    · rename_i h
      split
      · exact hs
      · exact hs.become h s.activeCount s.overdrawn (fun _ => rfl) (fun _ => le_rfl) hs.pooled
    · exact hs
  | created i fd =>
    dsimp only [Pool.step]
    split
    · rename_i h
      split
      · rename_i hfd
        exact hs.opens h hfd (fun _ => rfl) fun _ => rfl
      · exact hs
    · exact hs
  | notCreated i =>
    dsimp only [Pool.step]
    split
    · rename_i h
      exact hs.become h (s.activeCount - 1) s.overdrawn (fun _ => rfl) (fun _ => le_rfl) hs.pooled
    · exact hs
  | connected i fd =>
    dsimp only [Pool.step]
    split
    · rename_i h
      split
      · rename_i hfd
        exact hs.opens h hfd (fun _ => rfl) fun _ => rfl
      · exact hs
    · exact hs
  | notConnected i =>
    dsimp only [Pool.step]
    split
    · rename_i h
      exact hs.become h s.activeCount s.overdrawn (fun _ => rfl) (fun _ => le_rfl) hs.pooled
    · exact hs
  | giveBack i keep =>
    dsimp only [Pool.step]
    split
    · rename_i fd host port slot h
      refine hs.become h (s.activeCount - 1) _ (fun _ => ?_) (fun _ => le_rfl) hs.pooled
      cases keep <;> rfl
    · exact hs

end Connections

/-! ### Slots -/

/-- What holds of the slots in every run. -/
structure Counted (c : Limits) (s : Pool) : Prop where
  active : (s.activeCount.toNat + s.overdrawn) % 2 ^ 64 = s.slots % 2 ^ 64
  limit : s.slots ≤ c.maxActiveConnections.toNat + s.overdrawn

section Slots

variable {c : Limits} {s : Pool}

theorem toNat_pred (n : UInt64) : ((n - 1).toNat + 1) % 2 ^ 64 = n.toNat := by
  have hlt := n.toNat_lt
  rw [UInt64.toNat_sub, UInt64.toNat_one]
  omega

/-- A request goes on, with the slot it had or without one. -/
theorem Counted.keeps (hs : Counted c s) {i : ℕ} {x y : Phase} (h : s.requests[i]? = some x)
    (hxy : y.hasSlot = x.hasSlot) (pool : List PooledConnection) (opened closed : List ℕ) :
    Counted c { s.become i y with pool := pool, opened := opened, closed := closed } := by
  have hslots : (s.become i y).slots = s.slots := by
    have hsum := slots_become h y
    omega
  refine ⟨?_, ?_⟩
  · change (s.activeCount.toNat + s.overdrawn) % 2 ^ 64 = (s.become i y).slots % 2 ^ 64
    rw [hslots]
    exact hs.active
  · change (s.become i y).slots ≤ c.maxActiveConnections.toNat + s.overdrawn
    rw [hslots]
    exact hs.limit

/-- A slot is given back: one that the request had, or one that it had not. -/
theorem Counted.gives (hs : Counted c s) {i k : ℕ} {x y : Phase} (h : s.requests[i]? = some x)
    (hxy : y.hasSlot + 1 = x.hasSlot + k) :
    Counted c { s.become i y with activeCount := s.activeCount - 1, overdrawn := s.overdrawn + k } := by
  have hsum := slots_become h y
  have hpred := toNat_pred s.activeCount
  have hact := hs.active
  have hlim := hs.limit
  refine ⟨?_, ?_⟩
  · change ((s.activeCount - 1).toNat + (s.overdrawn + k)) % 2 ^ 64 = (s.become i y).slots % 2 ^ 64
    omega
  · change (s.become i y).slots ≤ c.maxActiveConnections.toNat + (s.overdrawn + k)
    omega

/-- A slot is taken when the count is below the limit. When slots were given back that
were not had, the count is not the number of requests with a slot. -/
theorem Counted.takes (hs : Counted c s) {i : ℕ} {x y : Phase} (h : s.requests[i]? = some x)
    (hx : x.hasSlot = 0) (hy : y.hasSlot = 1) (hfree : s.activeCount < c.maxActiveConnections) :
    Counted c { s.become i y with activeCount := s.activeCount + 1 } := by
  have hsum := slots_become h y
  have hact := hs.active
  have hlim := hs.limit
  have hlt := UInt64.lt_iff_toNat_lt.mp hfree
  have hmax := c.maxActiveConnections.toNat_lt
  refine ⟨?_, ?_⟩
  · change ((s.activeCount + 1).toNat + s.overdrawn) % 2 ^ 64 = (s.become i y).slots % 2 ^ 64
    rw [UInt64.toNat_add, UInt64.toNat_one]
    omega
  · change (s.become i y).slots ≤ c.maxActiveConnections.toNat + s.overdrawn
    omega

theorem counted_start (c : Limits) (n : ℕ) : Counted c (start n) := by
  have hnone : (start n).slots = 0 := by
    unfold Pool.slots start
    simp [Phase.hasSlot]
  refine ⟨?_, ?_⟩
  · rw [hnone]
    rfl
  · rw [hnone]
    exact Nat.zero_le _

theorem counted_step (hs : Counted c s) (a : Action) : Counted c (s.step c a) := by
  cases a with
  | look i =>
    dsimp only [Pool.step]
    split
    · rename_i h
      split
      · split
        · exact hs.keeps h (by rfl) _ s.opened s.closed
        · exact hs
      · exact hs.keeps h (by rfl) s.pool s.opened s.closed
    · exact hs
  | finish i now =>
    dsimp only [Pool.step]
    split
    · rename_i h
      split
      · exact hs.keeps h (by rfl) s.pool s.opened _
      · exact hs.keeps h (by rfl) _ s.opened s.closed
    · rename_i h
      exact hs.keeps h (by rfl) s.pool s.opened _
    · exact hs
  | evictIdle now => exact ⟨hs.active, hs.limit⟩
  | start i host port =>
    dsimp only [Pool.step]
    split
    · rename_i h
      exact hs.keeps h (by rfl) s.pool s.opened s.closed
    · exact hs
  | takeSlot i =>
    dsimp only [Pool.step]
    split
    · rename_i h
      split
      · rename_i hfree
        exact hs.takes h rfl rfl hfree
      · exact hs
    · exact hs
  | timeOut i =>
    dsimp only [Pool.step]
    split
    · rename_i h
      split
      · exact hs
      · exact hs.keeps h (by rfl) s.pool s.opened s.closed
    · exact hs
  | created i fd =>
    dsimp only [Pool.step]
    split
    · rename_i h
      split
      · exact hs.keeps h (by rfl) s.pool _ s.closed
      · exact hs
    · exact hs
  | notCreated i =>
    dsimp only [Pool.step]
    split
    · rename_i h
      exact hs.gives (k := 0) h rfl
    · exact hs
  | connected i fd =>
    dsimp only [Pool.step]
    split
    · rename_i h
      split
      · exact hs.keeps h (by rfl) s.pool _ s.closed
      · exact hs
    · exact hs
  | notConnected i =>
    dsimp only [Pool.step]
    split
    · rename_i h
      exact hs.keeps h (by rfl) s.pool s.opened s.closed
    · exact hs
  | giveBack i keep =>
    dsimp only [Pool.step]
    split
    · rename_i fd host port slot h
      refine hs.gives h ?_
      cases keep <;> cases slot <;> rfl
    · exact hs

end Slots

/-! ### Runs -/

/-- Whatever the order of the steps of any number of requests: a connection is pooled or
used by one of them, and no other one; those that were opened and are neither were closed,
once each; the pool is no larger than its size; the count of the slots is how many
requests have one, less those given back that were not had, modulo `2 ^ 64`; and the
requests with a slot are at most the limit and as many more as these. -/
theorem pool_run (c : Limits) (n : ℕ) (as : List Action) :
    Kept c (run (Pool.step c) (start n) as) ∧ Counted c (run (Pool.step c) (start n) as) :=
  Run.run_inv (Pool.step c) (I := fun _ s => Kept c s ∧ Counted c s) (C := fun _ _ => True)
    (fun _ _ a hs _ => ⟨kept_step hs.1 a, counted_step hs.2 a⟩) as [] (start n)
    ⟨kept_start c n, counted_start c n⟩ (Run.along_true _ _)

section LockedOut

variable {c : Limits} {s : Pool}

theorem counted_run (c : Limits) (n : ℕ) (as : List Action) : Counted c (run (Pool.step c) (start n) as) :=
  Run.run_inv (Pool.step c) (I := fun _ s => Counted c s) (C := fun _ _ => True)
    (fun _ _ a hs _ => counted_step hs a) as [] (start n) (counted_start c n) (Run.along_true _ _)

/-- What was given back and not had only grows. -/
theorem overdrawn_step (a : Action) : s.overdrawn ≤ (s.step c a).overdrawn := by
  cases a <;> dsimp only [Pool.step, Pool.become] <;> (repeat' split) <;> simp

theorem overdrawn_run (as : List Action) (s : Pool) : s.overdrawn ≤ (run (Pool.step c) s as).overdrawn := by
  induction as generalizing s with
  | nil => exact le_rfl
  | cons a as ih => exact (overdrawn_step a).trans (ih (s.step c a))

/-- No request gets a slot. -/
def Refused (c : Limits) (s : Pool) (a : Action) : Prop := ∀ i, a = .takeSlot i → s.step c a = s

/-- The count has wrapped. -/
theorem refused_of_lt (hs : Counted c s) (hlt : s.slots < s.overdrawn)
    (hmax : s.overdrawn + c.maxActiveConnections.toNat ≤ 2 ^ 64) (a : Action) : Refused c s a := by
  rintro i rfl
  have hfull : ¬ s.activeCount < c.maxActiveConnections := by
    have hact := hs.active
    have hcount := s.activeCount.toNat_lt
    rw [UInt64.lt_iff_toNat_lt]
    omega
  dsimp only [Pool.step]
  split
  · rw [if_neg hfull]
  · rfl

theorem slots_le {i : ℕ} {x y : Phase} (h : s.requests[i]? = some x) (hxy : y.hasSlot ≤ x.hasSlot) :
    (s.become i y).slots ≤ s.slots := by
  have hsum := slots_become h y
  omega

/-- A step that gives no slot leaves no more requests with one. -/
theorem slots_step (a : Action) (ha : Refused c s a) : (s.step c a).slots ≤ s.slots := by
  cases a with
  | takeSlot i => rw [ha i rfl]
  | evictIdle now => exact le_rfl
  | look i =>
    dsimp only [Pool.step]
    split
    · rename_i h
      split
      · split
        · exact slots_le h (by rfl)
        · exact le_rfl
      · exact slots_le h (by rfl)
    · exact le_rfl
  | finish i now =>
    dsimp only [Pool.step]
    split
    · rename_i h
      split
      · exact slots_le h (by rfl)
      · exact slots_le h (by rfl)
    · rename_i h
      exact slots_le h (by rfl)
    · exact le_rfl
  | created i fd | connected i fd | timeOut i =>
    dsimp only [Pool.step]
    split
    · rename_i h
      split
      · first | exact le_rfl | exact slots_le h (by rfl)
      · first | exact le_rfl | exact slots_le h (by rfl)
    · exact le_rfl
  | giveBack i keep =>
    dsimp only [Pool.step]
    split
    · rename_i fd host port slot h
      refine slots_le h ?_
      cases keep <;> exact Nat.zero_le _
    · exact le_rfl
  | start i host port | notCreated i | notConnected i =>
    dsimp only [Pool.step]
    split
    · rename_i h
      exact slots_le h (Nat.zero_le _)
    · exact le_rfl

theorem refused_along : ∀ {as : List Action} {s : Pool}, Counted c s → s.slots < s.overdrawn →
    (run (Pool.step c) s as).overdrawn + c.maxActiveConnections.toNat ≤ 2 ^ 64 →
      Along (Pool.step c) (Refused c) s as
  | [], _, _, _, _ => trivial
  | a :: as, s, hs, hlt, hmax => by
    have hnow := overdrawn_run (c := c) (a :: as) s
    have hno := refused_of_lt hs hlt (by omega) a
    have hslots := slots_step a hno
    have hover := overdrawn_step (c := c) (s := s) a
    exact ⟨hno, refused_along (counted_step hs a) (by omega) hmax⟩

/-- Once more slots were given back that were not had than requests have one, no request
gets a slot: not while these are fewer than `2 ^ 64`, less the limit. -/
theorem lockedOut_run (c : Limits) (n : ℕ) (as as' : List Action)
    (hlt : (run (Pool.step c) (start n) as).slots < (run (Pool.step c) (start n) as).overdrawn)
    (hmax : (run (Pool.step c) (start n) (as ++ as')).overdrawn + c.maxActiveConnections.toNat ≤ 2 ^ 64) :
    Along (Pool.step c) (Refused c) (run (Pool.step c) (start n) as) as' := by
  rw [Run.run_append] at hmax
  exact refused_along (counted_run c n as) hlt hmax

/-- One slot, and two requests to a host: the second one times out, connects on its own,
and gives back after the first one has. -/
def twoOnOneSlot : List Action :=
  [.start 0 [] 8080, .start 1 [] 8080, .takeSlot 0, .look 0, .timeOut 1, .created 0 5, .connected 1 6,
    .giveBack 0 true, .giveBack 1 true]

theorem lockedOut_two :
    Along (Pool.step { maxActiveConnections := 1 }) (Refused { maxActiveConnections := 1 })
      (run (Pool.step { maxActiveConnections := 1 }) (start 2) twoOnOneSlot)
      [.finish 0 ⟨0, by decide⟩, .finish 1 ⟨0, by decide⟩, .start 0 [] 8080, .takeSlot 0] :=
  lockedOut_run { maxActiveConnections := 1 } 2 twoOnOneSlot _ (by decide) (by decide)

end LockedOut

end ConnectionPool
end Provider
end Amind
