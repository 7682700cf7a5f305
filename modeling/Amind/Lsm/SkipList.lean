/-
# The skip list in memory

Nodes are allocated one after the other and never freed while the list lives; the address of a node
is its place in that order. A node has its links, as many as its level asks for, and the
sentinel has one for each level there can be. Reading or writing a link that is not there
is undefined, and `none` here.

A search goes along each level from the top one down. `put` notes where it leaves each level,
in an array that it fills for the levels there are, and with the sentinel for those that a
new node adds.

`Holds` says how the levels lie: each is linked through the nodes that reach it, in the order
of all nodes. `Represents.put` and its like say that the operations succeed and do
what those of the sorted list do.

Key definitions: `LinkedSkipList`, `put`, `Holds`.
-/
import Amind.Lib.Links
import Amind.Lsm.MemTable

namespace Amind
namespace Lsm

/-- The sentinel, or the node at an address. -/
inductive Place
  | head
  | node (p : ℕ)
  deriving DecidableEq

/-- A node with its links, the one of the bottom level first. -/
structure Cell (K V : Type) extends Node K V where
  forward : List (Option ℕ)

namespace LinkedSkipList

def MAX_LEVEL : ℕ := 16

end LinkedSkipList

open LinkedSkipList in
/-- The links of the sentinel, and the nodes by address. -/
structure LinkedSkipList (K V : Type) where
  head : List (Option ℕ) := List.replicate (MAX_LEVEL + 1) none
  cells : List (Cell K V) := []
  currentLevel : ℕ := 0
  size : ℕ := 0

namespace LinkedSkipList

/-! ### The operations -/

/-- Toss a coin for each level, up to the last. -/
def rise (coins : ℕ → Bool) : ℕ → ℕ → ℕ
  | 0, level => level
  | room + 1, level => if coins level then rise coins room (level + 1) else level

def randomLevel (coins : ℕ → Bool) : ℕ := rise coins MAX_LEVEL 0

section Operations

variable {K V : Type} (s : LinkedSkipList K V)

/-- The link `forward[i]` of a place. -/
def forward (x : Place) (i : ℕ) : Option (Option ℕ) :=
  match x with
  | .head => s.head[i]?
  | .node p => s.cells[p]?.bind fun c => c.forward[i]?

def setForward (x : Place) (i : ℕ) (q : Option ℕ) : Option (LinkedSkipList K V) :=
  match x with
  | .head => if i < s.head.length then some { s with head := s.head.set i q } else none
  | .node p => s.cells[p]?.bind fun c =>
    if i < c.forward.length then
      some { s with cells := s.cells.set p { c with forward := c.forward.set i q } }
    else none

/-- What is at an address, besides the links. -/
def nodeAt (p : ℕ) : Option (Node K V) := s.cells[p]?.map Cell.toNode

/-- Write what is at an address, and leave the links. -/
def setNode (p : ℕ) (n : Node K V) : LinkedSkipList K V :=
  { s with cells := s.cells.modify p fun c => { c with toNode := n } }

/-- Allocate a node of this level, without links. -/
def allocate (n : Node K V) (level : ℕ) : LinkedSkipList K V :=
  { s with cells := s.cells ++ [⟨n, List.replicate (level + 1) none⟩] }

/-- Link a new node at one level, behind the place noted for it. -/
def link (new : ℕ) (update : ℕ → Option Place) (s : LinkedSkipList K V) (i : ℕ) : Option (LinkedSkipList K V) := do
  let x ← update i
  let q ← s.forward x i
  let s ← s.setForward (.node new) i q
  s.setForward x i (some new)

variable [LinearOrder K]

/-- The inner loop of a search: go on while the key of the next node is below. -/
def walk (k : K) (i : ℕ) (x : Place) : Option Place :=
  Links.walk Place.node (fun x => s.forward x i) (fun p => (s.nodeAt p).map fun n => decide (n.key < k))
    (s.cells.length + 1) x

/-- The outer loop, over the levels below `i`. Where a level is left is noted. -/
def descend (k : K) : ℕ → Place → (ℕ → Option Place) → Option (Place × (ℕ → Option Place))
  | 0, x, update => some (x, update)
  | i + 1, x, update => do
    let x ← s.walk k i x
    descend k i x (Function.update update i (some x))

/-- The first node of the bottom level that is not below, and the places noted. -/
def search (k : K) : Option (Option ℕ × (ℕ → Option Place)) := do
  let (x, update) ← s.descend k (s.currentLevel + 1) .head fun _ => none
  let p ← s.forward x 0
  pure (p, update)

/-- The node the search ends at, if it has the key. -/
def found (k : K) : Option (Option ℕ × (ℕ → Option Place)) := do
  let (p, update) ← s.search k
  match p with
  | none => pure (none, update)
  | some p => do
    let n ← s.nodeAt p
    pure (if n.key = k then some p else none, update)

/-- Put in a new node behind the places noted. New levels begin at the sentinel. -/
def insert (k : K) (v : V) (newLevel : ℕ) (update : ℕ → Option Place) : Option (LinkedSkipList K V) := do
  let update := fun i => if s.currentLevel < i ∧ i ≤ newLevel then some .head else update i
  let new := s.cells.length
  let s := { s with currentLevel := max s.currentLevel newLevel }.allocate ⟨k, v, false⟩ newLevel
  let s ← (List.range (newLevel + 1)).foldlM (link new update) s
  pure { s with size := s.size + 1 }

/-- Insert or update a key-value pair. -/
def put (k : K) (v : V) (coins : ℕ → Bool) : Option (LinkedSkipList K V) := do
  let (p, update) ← s.found k
  match p with
  | some p => pure (s.setNode p ⟨k, v, false⟩)
  | none => s.insert k v (randomLevel coins) update

/-- The value of `k`, if it is found and not flagged. -/
def get (k : K) : Option (Option V) := do
  let (p, _) ← s.found k
  match p with
  | none => pure none
  | some p => do
    let n ← s.nodeAt p
    pure (if n.isTombstone then none else some n.value)

/-- Mark a key as deleted. The answer is whether it was found. -/
def remove (k : K) : Option (LinkedSkipList K V × Bool) := do
  let (p, _) ← s.found k
  match p with
  | none => pure (s, false)
  | some p => do
    let n ← s.nodeAt p
    pure (s.setNode p { n with isTombstone := true }, true)

def contains (k : K) : Option Bool := do
  let (p, _) ← s.found k
  match p with
  | none => pure false
  | some p => do
    let n ← s.nodeAt p
    pure !n.isTombstone

/-- The iterator at the first key not below. -/
def lowerBound (k : K) : Option (Option ℕ) := (s.search k).map (·.1)

omit [LinearOrder K]

/-- What an iterator goes through to the end. -/
def visit : ℕ → Option ℕ → Option (List (Node K V))
  | 0, _ => none
  | _ + 1, none => some []
  | fuel + 1, some p => do
    let n ← s.nodeAt p
    let next ← s.forward (.node p) 0
    let rest ← visit fuel next
    pure (n :: rest)

/-- The nodes from an iterator on. -/
def iterate (p : Option ℕ) : Option (List (Node K V)) := s.visit (s.cells.length + 1) p

def forEach : Option (List (Node K V)) := (s.forward .head 0).bind s.iterate

def allKeys : Option (List K) := s.forEach.map fun ns => ns.map (·.key)

/-- The nodes a level links. -/
def levelNodes (i : ℕ) : Option (List (Node K V)) :=
  (Links.items Place.node (fun x => s.forward x i) (s.cells.length + 1) .head).bind fun ps => ps.mapM s.nodeAt

end Operations

/-! ### Reading and writing -/

section Memory

variable {K V : Type} {s s' : LinkedSkipList K V} {x : Place} {i p : ℕ} {q : Option ℕ}

/-- The nodes are as they were, whatever the links are. -/
structure SameNodes (s s' : LinkedSkipList K V) : Prop where
  cells : s'.cells.map Cell.toNode = s.cells.map Cell.toNode
  currentLevel : s'.currentLevel = s.currentLevel
  size : s'.size = s.size

theorem SameNodes.refl (s : LinkedSkipList K V) : SameNodes s s := ⟨rfl, rfl, rfl⟩

theorem SameNodes.trans {s'' : LinkedSkipList K V} (h : SameNodes s s') (h' : SameNodes s' s'') : SameNodes s s'' :=
  ⟨h'.cells.trans h.cells, h'.currentLevel.trans h.currentLevel, h'.size.trans h.size⟩

theorem nodeAt_eq (s : LinkedSkipList K V) (p : ℕ) : s.nodeAt p = (s.cells.map Cell.toNode)[p]? :=
  (List.getElem?_map ..).symm

theorem SameNodes.nodeAt (h : SameNodes s s') (p : ℕ) : s'.nodeAt p = s.nodeAt p := by
  rw [nodeAt_eq, nodeAt_eq, h.cells]

theorem SameNodes.length (h : SameNodes s s') : s'.cells.length = s.cells.length := by
  simpa using congrArg List.length h.cells

theorem lt_of_nodeAt {n : Node K V} (h : s.nodeAt p = some n) : p < s.cells.length := by
  obtain ⟨c, hc, -⟩ := Option.map_eq_some_iff.mp h
  exact (List.getElem?_eq_some_iff.mp hc).1

/-- A link that can be read can be written. -/
theorem setForward_eq {q₀ : Option ℕ} (h : s.forward x i = some q₀) (q : Option ℕ) :
    ∃ s', s.setForward x i q = some s' ∧ SameNodes s s' ∧
      ∀ y j, s'.forward y j = if y = x ∧ j = i then some q else s.forward y j := by
  cases x with
  | head =>
    have hlt : i < s.head.length := (List.getElem?_eq_some_iff.mp h).1
    refine ⟨_, if_pos hlt, ⟨rfl, rfl, rfl⟩, fun y j => ?_⟩
    cases y with
    | head =>
      show (s.head.set i q)[j]? = if Place.head = Place.head ∧ j = i then some q else s.head[j]?
      by_cases hj : j = i
      · rw [if_pos ⟨rfl, hj⟩, hj, List.getElem?_set_self hlt]
      · rw [if_neg fun he => hj he.2, List.getElem?_set_ne (Ne.symm hj)]
    | node p =>
      rw [if_neg fun he => by cases he.1]
      rfl
  | node p =>
    obtain ⟨c, hc, hlink⟩ := Option.bind_eq_some_iff.mp h
    have hlt : i < c.forward.length := (List.getElem?_eq_some_iff.mp hlink).1
    have hp : p < s.cells.length := (List.getElem?_eq_some_iff.mp hc).1
    refine ⟨{ s with cells := s.cells.set p { c with forward := c.forward.set i q } }, ?_, ⟨?_, rfl, rfl⟩,
      fun y j => ?_⟩
    · show (s.cells[p]?.bind fun c => if i < c.forward.length then _ else none) = _
      rw [hc, Option.bind_some, if_pos hlt]
    · have hself : (s.cells.map Cell.toNode)[p]? = some c.toNode := by rw [List.getElem?_map, hc]; rfl
      obtain ⟨hlt', hself⟩ := List.getElem?_eq_some_iff.mp hself
      rw [List.map_set, ← hself, List.set_getElem_self]
    · cases y with
      | head =>
        rw [if_neg fun he => by cases he.1]
        rfl
      | node r =>
        show ((s.cells.set p { c with forward := c.forward.set i q })[r]?.bind fun c => c.forward[j]?) =
          if Place.node r = Place.node p ∧ j = i then some q else s.cells[r]?.bind fun c => c.forward[j]?
        by_cases hr : r = p
        · rw [hr, List.getElem?_set_self hp, hc, Option.bind_some, Option.bind_some]
          by_cases hj : j = i
          · rw [if_pos ⟨rfl, hj⟩, hj, List.getElem?_set_self hlt]
          · rw [if_neg fun he => hj he.2, List.getElem?_set_ne (Ne.symm hj)]
        · rw [if_neg fun he => hr (Place.node.inj he.1), List.getElem?_set_ne (Ne.symm hr)]

/-- Writing what is at an address leaves all links. -/
theorem forward_setNode (n : Node K V) : (s.setNode p n).forward x i = s.forward x i := by
  cases x with
  | head => rfl
  | node r =>
    show ((s.cells.modify p fun c => { c with toNode := n })[r]?.bind fun c => c.forward[i]?) = _
    rw [List.getElem?_modify, forward]
    split <;> cases s.cells[r]? <;> rfl

theorem nodeAt_setNode (n : Node K V) {r : ℕ} : (s.setNode p n).nodeAt r =
    if p = r then (s.nodeAt r).map fun _ => n else s.nodeAt r := by
  show ((s.cells.modify p fun c => { c with toNode := n })[r]?).map Cell.toNode = _
  rw [List.getElem?_modify, nodeAt]
  split <;> cases s.cells[r]? <;> rfl

theorem length_setNode (n : Node K V) : (s.setNode p n).cells.length = s.cells.length := List.length_modify ..

theorem nodeAt_allocate {n : Node K V} {level r : ℕ} : (s.allocate n level).nodeAt r =
    if r = s.cells.length then some n else s.nodeAt r := by
  show ((s.cells ++ [_])[r]?).map Cell.toNode = _
  split
  · next h =>
    rw [h, List.getElem?_concat_length]
    rfl
  · next h =>
    obtain hlt | hge := Nat.lt_or_ge r s.cells.length
    · rw [List.getElem?_append_left hlt]
      rfl
    · rw [List.getElem?_eq_none (by rw [List.length_append, List.length_singleton]; omega), nodeAt,
        List.getElem?_eq_none hge]

/-- A new node has links to nothing, and the others have theirs. -/
theorem forward_allocate {n : Node K V} {level : ℕ} : (s.allocate n level).forward x i =
    if x = .node s.cells.length then (if i ≤ level then some none else none) else s.forward x i := by
  cases x with
  | head => rfl
  | node r =>
    show ((s.cells ++ [_])[r]?.bind fun c : Cell K V => c.forward[i]?) = _
    split
    · next h =>
      rw [Place.node.inj h, List.getElem?_concat_length, Option.bind_some, List.getElem?_replicate]
      simp only [Nat.lt_succ_iff]
    · next h =>
      have hr : r ≠ s.cells.length := fun he => h (he ▸ rfl)
      obtain hlt | hge := Nat.lt_or_ge r s.cells.length
      · rw [List.getElem?_append_left hlt]
        rfl
      · rw [List.getElem?_eq_none (by rw [List.length_append, List.length_singleton]; omega), forward,
          List.getElem?_eq_none hge]

end Memory

/-! ### The levels -/

/-- A node, with its address and its level. -/
structure Tower (K V : Type) extends Node K V where
  ptr : ℕ
  level : ℕ

section Levels

variable {K V : Type} {ts ts' lo hi : List (Tower K V)} {i : ℕ}

/-- The addresses of the nodes that reach a level. -/
def chainOf (ts : List (Tower K V)) (i : ℕ) : List ℕ := (ts.filter fun t => i ≤ t.level).map Tower.ptr

theorem chainOf_append : chainOf (lo ++ hi) i = chainOf lo i ++ chainOf hi i := by
  rw [chainOf, List.filter_append, List.map_append, chainOf, chainOf]

theorem chainOf_zero : chainOf ts 0 = ts.map Tower.ptr := by simp [chainOf]

theorem mem_chainOf {p : ℕ} : p ∈ chainOf ts i ↔ ∃ t ∈ ts, i ≤ t.level ∧ t.ptr = p := by
  simp [chainOf, and_assoc]

/-- A level links some of the nodes that the level below links. -/
theorem chainOf_sublist (ts : List (Tower K V)) {i j : ℕ} (h : i ≤ j) : (chainOf ts j).Sublist (chainOf ts i) := by
  refine List.Sublist.map _ (List.monotone_filter_right ts fun t ht => ?_)
  rw [decide_eq_true_eq] at ht ⊢
  exact h.trans ht

theorem length_chainOf_le (ts : List (Tower K V)) (i : ℕ) : (chainOf ts i).length ≤ ts.length := by
  rw [chainOf, List.length_map]
  exact List.length_filter_le _ _

variable [LinearOrder K]

/-- The nodes, in ascending order of their keys, and each level linked through those that
reach it. -/
structure Holds (s : LinkedSkipList K V) (ts : List (Tower K V)) : Prop where
  sorted : ts.Pairwise fun a b => a.key < b.key
  nodes : ∀ t ∈ ts, s.nodeAt t.ptr = some t.toNode
  levels : ∀ t ∈ ts, t.level ≤ s.currentLevel
  top : s.currentLevel ≤ MAX_LEVEL
  chains : ∀ i ≤ MAX_LEVEL, Links.Chain Place.node (fun x => s.forward x i) .head (chainOf ts i)
  length : s.cells.length = ts.length
  size : s.size = ts.length

/-- The places a search for `k` comes to: at each level the last below. -/
def pred (lo : List (Tower K V)) (i : ℕ) : Place := Links.endOf Place.node .head (chainOf lo i)

variable {s : LinkedSkipList K V} {k : K}

theorem Holds.ptr_inj (h : Holds s ts) {t t' : Tower K V} (ht : t ∈ ts) (ht' : t' ∈ ts) (he : t.ptr = t'.ptr) :
    t = t' := by
  have hkeys : (ts.map fun t => t.key).Nodup := List.pairwise_map.mpr (h.sorted.imp fun hlt => hlt.ne)
  have hnode : t.toNode = t'.toNode := Option.some.inj ((h.nodes t ht).symm.trans (he ▸ h.nodes t' ht'))
  exact List.inj_on_of_nodup_map hkeys ht ht' (congrArg Node.key hnode)

theorem Holds.nodup_chainOf (h : Holds s ts) (i : ℕ) : (chainOf ts i).Nodup := by
  have hnodup : ts.Nodup := h.sorted.imp fun hlt he => (he ▸ hlt).ne rfl
  refine (hnodup.filter _).map_on fun t ht t' ht' he => ?_
  exact h.ptr_inj (List.mem_of_mem_filter ht) (List.mem_of_mem_filter ht') he

/-- The nodes below `k`, and the others. -/
structure Splits (k : K) (lo hi : List (Tower K V)) : Prop where
  below : ∀ t ∈ lo, t.key < k
  others : ∀ t ∈ hi, ¬ t.key < k

theorem exists_splits (k : K) : ∀ {ts : List (Tower K V)}, ts.Pairwise (fun a b => a.key < b.key) →
    ∃ lo hi, ts = lo ++ hi ∧ Splits k lo hi
  | [], _ => ⟨[], [], rfl, by simp, by simp⟩
  | t :: ts, h => by
    obtain ⟨ht, hts⟩ := List.pairwise_cons.mp h
    by_cases hlt : t.key < k
    · obtain ⟨lo, hi, rfl, hsplit⟩ := exists_splits k hts
      exact ⟨t :: lo, hi, rfl, List.forall_mem_cons.mpr ⟨hlt, hsplit.below⟩, hsplit.others⟩
    · refine ⟨[], t :: ts, rfl, by simp, List.forall_mem_cons.mpr ⟨hlt, fun u hu hlt' => ?_⟩⟩
      exact hlt ((ht u hu).trans hlt')

/-! ### Searching -/

variable {y : Place}

omit [LinearOrder K] in
theorem mem_of_pred (lo : List (Tower K V)) (i : ℕ) : pred lo i = .head ∨ ∃ p ∈ chainOf lo i, pred lo i = .node p :=
  Links.endOf_eq ..

/-- From a place below `k` the inner loop comes to the last. -/
theorem Holds.walk_eq (h : Holds s (lo ++ hi)) (hsplit : Splits k lo hi) (hi : i ≤ MAX_LEVEL)
    (hy : y = .head ∨ ∃ p ∈ chainOf lo i, y = .node p) : s.walk k i y = some (pred lo i) := by
  have hchain := h.chains i hi
  rw [chainOf_append] at hchain
  refine Links.walk_eq hchain hy (fun p hp => ?_) (fun p hp => ?_) ?_
  · obtain ⟨t, ht, -, rfl⟩ := mem_chainOf.mp hp
    rw [h.nodes t (List.mem_append_left _ ht), Option.map_some, decide_eq_true (hsplit.below t ht)]
  · obtain ⟨t, ht, -, rfl⟩ := mem_chainOf.mp (List.mem_of_mem_head? hp)
    rw [h.nodes t (List.mem_append_right _ ht), Option.map_some, decide_eq_false (hsplit.others t ht)]
  · have hlen := length_chainOf_le lo i
    rw [h.length, List.length_append]
    omega

/-- **The outer loop** comes to the last node below `k`, and notes the last one of each
level. -/
theorem Holds.descend_eq (h : Holds s (lo ++ hi)) (hsplit : Splits k lo hi) : ∀ (n : ℕ) (y : Place)
    (update : ℕ → Option Place), n ≤ MAX_LEVEL → (y = .head ∨ ∃ p ∈ chainOf lo n, y = .node p) →
    s.descend k (n + 1) y update = some (pred lo 0, fun i => if i ≤ n then some (pred lo i) else update i)
  | 0, y, update, hn, hy => by
    rw [descend, h.walk_eq hsplit hn hy]
    simp only [Option.bind_eq_bind, Option.bind_some, descend, Option.some.injEq, Prod.mk.injEq, true_and]
    funext i
    rw [Function.update_apply]
    by_cases hi : i = 0 <;> simp [hi]
  | n + 1, y, update, hn, hy => by
    have hnext : pred lo (n + 1) = .head ∨ ∃ p ∈ chainOf lo n, pred lo (n + 1) = .node p :=
      (mem_of_pred lo (n + 1)).imp_right fun ⟨p, hp, he⟩ => ⟨p, (chainOf_sublist lo (Nat.le_succ n)).subset hp, he⟩
    rw [descend, h.walk_eq hsplit hn hy]
    simp only [Option.bind_eq_bind, Option.bind_some]
    rw [h.descend_eq hsplit n _ _ (Nat.le_of_succ_le hn) hnext]
    simp only [Option.some.injEq, Prod.mk.injEq, true_and]
    funext i
    rw [Function.update_apply]
    by_cases hle : i ≤ n
    · rw [if_pos hle, if_pos (Nat.le_succ_of_le hle)]
    · rw [if_neg hle]
      by_cases hi : i = n + 1
      · rw [if_pos hi, if_pos (Nat.le_of_eq hi), hi]
      · rw [if_neg hi, if_neg (by omega)]

/-- What is noted in a search. -/
def noted (s : LinkedSkipList K V) (lo : List (Tower K V)) (i : ℕ) : Option Place :=
  if i ≤ s.currentLevel then some (pred lo i) else none

/-- **A search** ends at the first node that is not below. -/
theorem Holds.search_eq (h : Holds s (lo ++ hi)) (hsplit : Splits k lo hi) :
    s.search k = some (hi.head?.map Tower.ptr, noted s lo) := by
  have hchain := h.chains 0 (Nat.zero_le _)
  rw [chainOf_append] at hchain
  have hlink : s.forward (pred lo 0) 0 = some (chainOf hi 0).head? := hchain.next_endOf
  rw [search, h.descend_eq hsplit s.currentLevel .head _ h.top (.inl rfl)]
  simp only [Option.bind_eq_bind, Option.bind_some]
  rw [hlink, chainOf_zero, List.head?_map]
  rfl

theorem Holds.found_none (h : Holds s (lo ++ hi)) (hsplit : Splits k lo hi) (hk : ∀ t ∈ hi.head?, t.key ≠ k) :
    s.found k = some (none, noted s lo) := by
  rw [found, h.search_eq hsplit]
  cases hi with
  | nil => rfl
  | cons t hi =>
    simp only [Option.bind_eq_bind, Option.bind_some, List.head?_cons, Option.map_some]
    rw [h.nodes t (by simp)]
    simp only [Option.bind_some, if_neg (hk t rfl)]
    rfl

theorem Holds.found_some {t : Tower K V} (h : Holds s (lo ++ t :: hi)) (hsplit : Splits k lo (t :: hi))
    (hk : t.key = k) :
    s.found k = some (some t.ptr, noted s lo) := by
  rw [found, h.search_eq hsplit]
  simp only [Option.bind_eq_bind, Option.bind_some, List.head?_cons, Option.map_some]
  rw [h.nodes t (by simp)]
  simp only [Option.bind_some, if_pos hk]
  rfl

/-! ### Writing into a node -/

theorem Holds.setNode {t : Tower K V} (h : Holds s (lo ++ t :: hi)) {n : Node K V} (hk : n.key = t.key) :
    Holds (s.setNode t.ptr n) (lo ++ { t with toNode := n } :: hi) := by
  have hkeys : (lo ++ { t with toNode := n } :: hi).map (fun t => t.key) = (lo ++ t :: hi).map fun t => t.key := by
    simp [hk]
  have hother : ∀ u ∈ lo ++ hi, t.ptr ≠ u.ptr := by
    intro u hu he
    have hmem : u ∈ lo ++ t :: hi := by
      rw [List.mem_append, List.mem_cons]
      exact (List.mem_append.mp hu).imp_right .inr
    obtain rfl := h.ptr_inj (by simp) hmem he
    obtain ⟨-, hhi, hlo⟩ := List.pairwise_append.mp h.sorted
    rcases List.mem_append.mp hu with hu | hu
    · exact (hlo t hu t List.mem_cons_self).ne rfl
    · exact ((List.pairwise_cons.mp hhi).1 t hu).ne rfl
  refine ⟨?_, fun u hu => ?_, fun u hu => ?_, h.top, fun i hle => ?_, ?_, ?_⟩
  · have hsorted := List.pairwise_map.mpr h.sorted
    rw [← hkeys] at hsorted
    exact List.pairwise_map.mp hsorted
  · rw [nodeAt_setNode]
    rcases List.mem_append.mp hu with hlo | hrest
    · rw [if_neg (hother u (List.mem_append_left _ hlo))]
      exact h.nodes u (List.mem_append_left _ hlo)
    · rcases List.mem_cons.mp hrest with rfl | hhi
      · rw [if_pos rfl, h.nodes t (by simp)]
        rfl
      · rw [if_neg (hother u (List.mem_append_right _ hhi))]
        exact h.nodes u (List.mem_append_right _ (List.mem_cons_of_mem _ hhi))
  · rcases List.mem_append.mp hu with hlo | hrest
    · exact h.levels u (List.mem_append_left _ hlo)
    · rcases List.mem_cons.mp hrest with rfl | hhi
      · exact h.levels t (by simp)
      · exact h.levels u (List.mem_append_right _ (List.mem_cons_of_mem _ hhi))
  · have hsame : chainOf (lo ++ { t with toNode := n } :: hi) i = chainOf (lo ++ t :: hi) i := by
      simp only [chainOf, List.filter_append, List.filter_cons, List.map_append]
      split <;> rfl
    rw [hsame]
    exact (h.chains i hle).congr (forward_setNode n) fun p _ => forward_setNode n
  · rw [length_setNode, h.length]
    simp
  · show s.size = _
    rw [h.size]
    simp

/-! ### Putting in a node -/

/-- The links once a node is linked at the levels below `n`. -/
def relinked (s : LinkedSkipList K V) (new : ℕ) (update : ℕ → Option Place) (n : ℕ) (y : Place) (j : ℕ) :
    Option (Option ℕ) :=
  if j < n then
    if y = .node new then (update j).bind fun x => s.forward x j
    else if update j = some y then some (some new)
    else s.forward y j
  else s.forward y j

omit [LinearOrder K] in
theorem foldlM_link (s : LinkedSkipList K V) (new : ℕ) (update : ℕ → Option Place) : ∀ (n : ℕ),
    (∀ i < n, ∃ x q, update i = some x ∧ x ≠ .node new ∧ s.forward x i = some q) →
    (∀ i < n, ∃ q, s.forward (.node new) i = some q) →
    ∃ s', (List.range n).foldlM (link new update) s = some s' ∧ SameNodes s s' ∧
      ∀ y j, s'.forward y j = relinked s new update n y j
  | 0, _, _ => ⟨s, rfl, .refl s, fun _ _ => rfl⟩
  | n + 1, hupdate, hnew => by
    obtain ⟨s₁, hs₁, hsame, hlinks⟩ := foldlM_link s new update n (fun i hi => hupdate i (Nat.lt_succ_of_lt hi))
      fun i hi => hnew i (Nat.lt_succ_of_lt hi)
    obtain ⟨x, q, hx, hne, hq⟩ := hupdate n (Nat.lt_succ_self n)
    obtain ⟨q₀, hq₀⟩ := hnew n (Nat.lt_succ_self n)
    have hlevel : ∀ y, s₁.forward y n = s.forward y n := fun y => by
      rw [hlinks, relinked, if_neg (Nat.lt_irrefl n)]
    obtain ⟨s₂, hs₂, hsame₂, hlinks₂⟩ := setForward_eq ((hlevel _).trans hq₀) q
    have hread : s₂.forward x n = some q := by rw [hlinks₂, if_neg fun he => hne he.1, hlevel, hq]
    obtain ⟨s₃, hs₃, hsame₃, hlinks₃⟩ := setForward_eq hread (some new)
    refine ⟨s₃, ?_, hsame.trans (hsame₂.trans hsame₃), fun y j => ?_⟩
    · have hstep : link new update s₁ n = some s₃ := by
        rw [link, hx]
        simp only [Option.bind_eq_bind, Option.bind_some]
        rw [hlevel, hq, Option.bind_some, hs₂, Option.bind_some, hs₃]
      rw [List.range_succ, List.foldlM_append, hs₁]
      simp [hstep]
    · rw [hlinks₃, hlinks₂, hlinks]
      obtain hlt | rfl | hgt := Nat.lt_trichotomy j n
      · rw [if_neg fun he => hlt.ne he.2, if_neg fun he => hlt.ne he.2, relinked, relinked, if_pos hlt,
          if_pos (Nat.lt_succ_of_lt hlt)]
      · rw [relinked, relinked, if_neg (Nat.lt_irrefl j), if_pos (Nat.lt_succ_self j), hx, Option.bind_some, hq]
        by_cases hy : y = .node new
        · rw [if_neg fun he => hne (he.1.symm.trans hy), if_pos ⟨hy, rfl⟩, if_pos hy]
        · by_cases hyx : y = x
          · rw [if_pos ⟨hyx, rfl⟩, if_neg hy, if_pos (congrArg some hyx.symm)]
          · rw [if_neg fun he => hyx he.1, if_neg fun he => hy he.1, if_neg hy,
              if_neg fun he => hyx (Option.some.inj he).symm]
      · rw [if_neg fun he => hgt.ne' he.2, if_neg fun he => hgt.ne' he.2, relinked, relinked, if_neg (by omega),
          if_neg (by omega)]

theorem Splits.above (hsplit : Splits k lo hi) (hsorted : hi.Pairwise fun a b => a.key < b.key)
    (hne : ∀ t ∈ hi.head?, t.key ≠ k) : ∀ t ∈ hi, k < t.key := by
  cases hi with
  | nil => simp
  | cons t hi =>
    have ht : k < t.key := lt_of_le_of_ne (not_lt.mp (hsplit.others t List.mem_cons_self)) (Ne.symm (hne t rfl))
    exact List.forall_mem_cons.mpr ⟨ht, fun u hu => ht.trans ((List.pairwise_cons.mp hsorted).1 u hu)⟩

theorem sorted_insert (hsorted : (lo ++ hi).Pairwise fun a b => a.key < b.key) (hsplit : Splits k lo hi)
    (hne : ∀ t ∈ hi.head?, t.key ≠ k) {t : Tower K V} (ht : t.key = k) :
    (lo ++ t :: hi).Pairwise fun a b => a.key < b.key := by
  obtain ⟨hlo, hhi, hboth⟩ := List.pairwise_append.mp hsorted
  refine List.pairwise_append.mpr ⟨hlo, List.pairwise_cons.mpr ⟨?_, hhi⟩, fun u hu w hw => ?_⟩
  · rw [ht]
    exact hsplit.above hhi hne
  · rcases List.mem_cons.mp hw with rfl | hw
    · rw [ht]
      exact hsplit.below u hu
    · exact hboth u hu w hw

/-- What is noted in the end: the last node below at each level that the new one reaches. -/
theorem Holds.noted_eq (h : Holds s (lo ++ hi)) {newLevel : ℕ} (hi : i ≤ newLevel) :
    (if s.currentLevel < i ∧ i ≤ newLevel then some Place.head else noted s lo i) = some (pred lo i) := by
  by_cases hnew : s.currentLevel < i
  · -- no node reaches a new level
    have hnone : chainOf lo i = [] := by
      rw [List.eq_nil_iff_forall_not_mem]
      intro p hp
      obtain ⟨t, ht, hlevel, -⟩ := mem_chainOf.mp hp
      have := h.levels t (List.mem_append_left _ ht)
      omega
    rw [if_pos ⟨hnew, hi⟩, pred, hnone]
    rfl
  · rw [if_neg fun he => hnew he.1, noted, if_pos (by omega)]

theorem Holds.fresh (h : Holds s ts) : ∀ t ∈ ts, t.ptr ≠ s.cells.length :=
  fun t ht => (lt_of_nodeAt (h.nodes t ht)).ne

theorem Holds.pred_ne (h : Holds s (lo ++ hi)) (i : ℕ) : pred lo i ≠ .node s.cells.length := by
  intro he
  obtain hhead | ⟨p, hp, hnode⟩ := mem_of_pred lo i
  · rw [hhead] at he
    cases he
  · obtain ⟨t, ht, -, rfl⟩ := mem_chainOf.mp hp
    exact h.fresh t (List.mem_append_left _ ht) (Place.node.inj (hnode.symm.trans he))

/-- A level once the new node is linked, if it reaches the level. -/
theorem Holds.chain_insert (h : Holds s (lo ++ hi)) {new : Tower K V} (hptr : new.ptr = s.cells.length)
    (hmax : i ≤ MAX_LEVEL) {next : Place → Option (Option ℕ)}
    (hnew : i ≤ new.level → next (.node new.ptr) = s.forward (pred lo i) i)
    (hpred : i ≤ new.level → next (pred lo i) = some (some new.ptr))
    (hother : ∀ y, y ≠ .node new.ptr → (i ≤ new.level → y ≠ pred lo i) → next y = s.forward y i) :
    Links.Chain Place.node next .head (chainOf (lo ++ new :: hi) i) := by
  have hchain := h.chains i hmax
  have hnot : new.ptr ∉ chainOf (lo ++ hi) i := by
    intro hp
    obtain ⟨t, ht, -, he⟩ := mem_chainOf.mp hp
    exact h.fresh t ht (he.trans hptr)
  by_cases hle : i ≤ new.level
  · have hinsert : chainOf (lo ++ new :: hi) i = chainOf lo i ++ new.ptr :: chainOf hi i := by
      rw [chainOf_append, chainOf, chainOf, List.filter_cons_of_pos (by simpa using hle)]
      rfl
    have hnodup := h.nodup_chainOf i
    rw [chainOf_append] at hchain hnot hnodup
    rw [hinsert]
    exact hchain.splice (fun _ _ => Place.node.inj) hnodup (fun _ _ he => by cases he) hnot (fun he => by cases he)
      (hnew hle) (hpred hle) fun z hz hzpred => hother z hz fun _ => hzpred
  · have hinsert : chainOf (lo ++ new :: hi) i = chainOf (lo ++ hi) i := by
      rw [chainOf_append, chainOf_append, chainOf, chainOf, List.filter_cons_of_neg (by simpa using hle)]
      rfl
    rw [hinsert]
    refine hchain.congr (hother .head (fun he => by cases he) fun hle' => absurd hle' hle) fun p hp => ?_
    exact hother (.node p) (fun he => hnot (Place.node.inj he ▸ hp)) fun hle' => absurd hle' hle

/-- Once a new node is linked it is between its neighbours at each level it reaches, and
nothing else has changed. -/
theorem Holds.linked (h : Holds s (lo ++ hi)) (n : Node K V) {newLevel : ℕ} (hlevel : newLevel ≤ MAX_LEVEL)
    (top : ℕ) {update : ℕ → Option Place} (hupdate : ∀ i ≤ newLevel, update i = some (pred lo i)) :
    ∃ s', (List.range (newLevel + 1)).foldlM (link s.cells.length update)
        ({ s with currentLevel := top }.allocate n newLevel) = some s' ∧
      SameNodes ({ s with currentLevel := top }.allocate n newLevel) s' ∧
      (∀ i ≤ newLevel, s'.forward (.node s.cells.length) i = s.forward (pred lo i) i) ∧
      (∀ i ≤ newLevel, s'.forward (pred lo i) i = some (some s.cells.length)) ∧
      ∀ i y, y ≠ .node s.cells.length → (i ≤ newLevel → y ≠ pred lo i) → s'.forward y i = s.forward y i := by
  have hlink : ∀ i ≤ newLevel, s.forward (pred lo i) i = some (chainOf hi i).head? := by
    intro i hle
    have hchain := h.chains i (hle.trans hlevel)
    rw [chainOf_append] at hchain
    exact hchain.next_endOf
  have hbefore : ∀ {x}, x ≠ .node s.cells.length → ∀ i,
      ({ s with currentLevel := top }.allocate n newLevel).forward x i = s.forward x i :=
    fun hx i => forward_allocate.trans (if_neg hx)
  obtain ⟨s', hs', hsame, hlinks⟩ :=
    foldlM_link ({ s with currentLevel := top }.allocate n newLevel) s.cells.length update (newLevel + 1)
      (fun i hi => ⟨pred lo i, _, hupdate i (Nat.le_of_lt_succ hi), h.pred_ne i,
        (hbefore (h.pred_ne i) i).trans (hlink i (Nat.le_of_lt_succ hi))⟩)
      (fun i hi => ⟨none, forward_allocate.trans (by rw [if_pos rfl, if_pos (Nat.le_of_lt_succ hi)])⟩)
  refine ⟨s', hs', hsame, fun i hle => ?_, fun i hle => ?_, fun i y hy hpred => ?_⟩
  · rw [hlinks, relinked, if_pos (Nat.lt_succ_of_le hle), if_pos rfl, hupdate i hle, Option.bind_some,
      hbefore (h.pred_ne i)]
  · rw [hlinks, relinked, if_pos (Nat.lt_succ_of_le hle), if_neg (h.pred_ne i), hupdate i hle, if_pos rfl]
  · rw [hlinks, relinked, hbefore hy, if_neg hy]
    split
    · next hlt =>
      have hle := Nat.le_of_lt_succ hlt
      rw [hupdate i hle, if_neg fun he => hpred hle (Option.some.inj he).symm]
    · rfl

/-- **Putting in a node** keeps the levels in order. -/
theorem Holds.insert (h : Holds s (lo ++ hi)) (hsplit : Splits k lo hi) (hne : ∀ t ∈ hi.head?, t.key ≠ k) (v : V)
    {newLevel : ℕ} (hlevel : newLevel ≤ MAX_LEVEL) : ∃ s', s.insert k v newLevel (noted s lo) = some s' ∧
      Holds s' (lo ++
        { key := k, value := v, isTombstone := false, ptr := s.cells.length, level := newLevel } :: hi) := by
  let new : Tower K V := { key := k, value := v, isTombstone := false, ptr := s.cells.length, level := newLevel }
  have hmem : ∀ {t}, t ∈ lo ++ new :: hi → t = new ∨ t ∈ lo ++ hi := by
    intro t ht
    simp only [List.mem_append, List.mem_cons] at ht ⊢
    tauto
  obtain ⟨s', hs', hsame, hnew, hpred, hother⟩ :=
    h.linked ⟨k, v, false⟩ hlevel (max s.currentLevel newLevel) fun i hle => h.noted_eq hle
  have hrun : s.insert k v newLevel (noted s lo) = some { s' with size := s'.size + 1 } := by
    rw [LinkedSkipList.insert]
    simp only [hs', Option.bind_eq_bind, Option.bind_some]
    rfl
  have hnodes : ∀ t ∈ lo ++ new :: hi, s'.nodeAt t.ptr = some t.toNode := by
    intro t ht
    rw [hsame.nodeAt, nodeAt_allocate]
    obtain rfl | hold := hmem ht
    · exact if_pos rfl
    · exact (if_neg (h.fresh t hold)).trans (h.nodes t hold)
  have hlevels : ∀ t ∈ lo ++ new :: hi, t.level ≤ s'.currentLevel := by
    intro t ht
    rw [hsame.currentLevel]
    obtain rfl | hold := hmem ht
    · exact le_max_right _ _
    · exact (h.levels t hold).trans (le_max_left _ _)
  have htop : s'.currentLevel ≤ MAX_LEVEL := by
    rw [hsame.currentLevel]
    exact max_le h.top hlevel
  have hchains : ∀ i ≤ MAX_LEVEL,
      Links.Chain Place.node (fun x => s'.forward x i) .head (chainOf (lo ++ new :: hi) i) :=
    fun i hmax => h.chain_insert (show new.ptr = s.cells.length from rfl) hmax (hnew i) (hpred i) (hother i)
  have hlength : s'.cells.length = (lo ++ new :: hi).length := by
    have hcells : s'.cells.length = s.cells.length + 1 := hsame.length.trans (by simp [allocate])
    rw [hcells, h.length]
    simp only [List.length_append, List.length_cons]
    omega
  have hsize : s'.size + 1 = (lo ++ new :: hi).length := by
    rw [hsame.size]
    show s.size + 1 = _
    rw [h.size]
    simp only [List.length_append, List.length_cons]
    omega
  exact ⟨_, hrun, sorted_insert h.sorted hsplit hne rfl, hnodes, hlevels, htop, hchains, hlength, hsize⟩

end Levels

/-! ### The sorted list -/

section Refinement

variable {K V : Type} [LinearOrder K] {s : LinkedSkipList K V} {t : SkipList K V} {k : K}

theorem rise_le (coins : ℕ → Bool) : ∀ room level : ℕ, rise coins room level ≤ level + room
  | 0, _ => Nat.le_refl _
  | room + 1, level => by
    rw [rise]
    split
    · have := rise_le coins room (level + 1)
      omega
    · omega

theorem randomLevel_le (coins : ℕ → Bool) : randomLevel coins ≤ MAX_LEVEL := by
  simpa [randomLevel] using rise_le coins MAX_LEVEL 0

/-- The memory holds the nodes of the sorted list. -/
def Represents (s : LinkedSkipList K V) (t : SkipList K V) : Prop :=
  ∃ ts : List (Tower K V), Holds s ts ∧ t.nodes = ts.map Tower.toNode

theorem represents_empty : Represents ({} : LinkedSkipList K V) .empty := by
  refine ⟨[], ⟨List.Pairwise.nil, by simp, by simp, Nat.zero_le _, fun i hi => ?_, rfl, rfl⟩, rfl⟩
  show (List.replicate (MAX_LEVEL + 1) none)[i]? = some none
  rw [List.getElem?_replicate, if_pos (Nat.lt_succ_of_le hi)]

/-- What is found in the memory: the first node that is not below, if it has the key. -/
theorem Represents.exists_splits (h : Represents s t) (k : K) : ∃ lo hi : List (Tower K V), Holds s (lo ++ hi) ∧
    Splits k lo hi ∧ t.nodes = lo.map Tower.toNode ++ hi.map Tower.toNode := by
  obtain ⟨ts, hts, hnodes⟩ := h
  obtain ⟨lo, hi, rfl, hsplit⟩ := LinkedSkipList.exists_splits k hts.sorted
  exact ⟨lo, hi, hts, hsplit, hnodes.trans List.map_append⟩

theorem Splits.below_nodes {lo hi : List (Tower K V)} (h : Splits k lo hi) : ∀ n ∈ lo.map Tower.toNode, n.key < k := by
  intro n hn
  obtain ⟨t, ht, rfl⟩ := List.mem_map.mp hn
  exact h.below t ht

theorem seek_append {lo ns : List (Node K V)} (h : ∀ n ∈ lo, n.key < k) :
    SkipList.seek k (lo ++ ns) = SkipList.seek k ns := by
  unfold SkipList.seek
  exact List.dropWhile_append_of_pos fun n hn => decide_eq_true (h n hn)

theorem putNode_append {v : V} {ns : List (Node K V)} : ∀ {lo : List (Node K V)}, (∀ n ∈ lo, n.key < k) →
    SkipList.putNode k v (lo ++ ns) = lo ++ SkipList.putNode k v ns
  | [], _ => rfl
  | n :: lo, h => by
    obtain ⟨hn, hlo⟩ := List.forall_mem_cons.mp h
    rw [List.cons_append, SkipList.putNode, if_pos hn, putNode_append hlo]
    rfl

theorem removeNode_eq_self {ns : List (Node K V)} (h : ∀ n ∈ ns, n.key ≠ k) : SkipList.removeNode k ns = ns := by
  unfold SkipList.removeNode
  conv_rhs => rw [← List.map_id ns]
  exact List.map_congr_left fun n hn => if_neg (h n hn)

theorem seek_nodes {lo hi : List (Tower K V)} (hsplit : Splits k lo hi)
    (hnodes : t.nodes = lo.map Tower.toNode ++ hi.map Tower.toNode) :
    SkipList.seek k t.nodes = hi.map Tower.toNode := by
  rw [hnodes, seek_append hsplit.below_nodes]
  cases hi with
  | nil => rfl
  | cons u hi =>
    rw [SkipList.seek, List.map_cons, List.dropWhile_cons_of_neg]
    simpa using hsplit.others u List.mem_cons_self

/-- What a key is found with, and where. -/
inductive Found (s : LinkedSkipList K V) (t : SkipList K V) (k : K) : Prop
  | absent (lo hi : List (Tower K V)) (h : Holds s (lo ++ hi)) (hsplit : Splits k lo hi)
    (hnodes : t.nodes = lo.map Tower.toNode ++ hi.map Tower.toNode) (hne : ∀ u ∈ hi.head?, u.key ≠ k)
  | present (lo : List (Tower K V)) (u : Tower K V) (hi : List (Tower K V)) (h : Holds s (lo ++ u :: hi))
    (hsplit : Splits k lo (u :: hi)) (hnodes : t.nodes = lo.map Tower.toNode ++ u.toNode :: hi.map Tower.toNode)
    (hk : u.key = k)

theorem Represents.found (h : Represents s t) (k : K) : Found s t k := by
  obtain ⟨lo, hi, hts, hsplit, hnodes⟩ := h.exists_splits k
  cases hi with
  | nil => exact .absent lo [] hts hsplit hnodes (by simp)
  | cons u hi =>
    by_cases hk : u.key = k
    · exact .present lo u hi hts hsplit hnodes hk
    · exact .absent lo (u :: hi) hts hsplit hnodes (by simpa using hk)

/-- **Putting** succeeds, whatever the coins, and puts into the sorted list. -/
theorem Represents.put (h : Represents s t) (k : K) (v : V) (coins : ℕ → Bool) :
    ∃ s', s.put k v coins = some s' ∧ Represents s' (t.put k v) := by
  cases h.found k with
  | absent lo hi h hsplit hnodes hne =>
    obtain ⟨s', hs', h'⟩ := h.insert hsplit hne v (randomLevel_le coins)
    refine ⟨s', ?_, _, h', ?_⟩
    · rw [LinkedSkipList.put, h.found_none hsplit hne]
      exact hs'
    · show SkipList.putNode k v t.nodes = _
      rw [hnodes, putNode_append hsplit.below_nodes, List.map_append]
      cases hi with
      | nil => rfl
      | cons u hi =>
        rw [List.map_cons, SkipList.putNode, if_neg (hsplit.others u List.mem_cons_self), if_neg (hne u rfl)]
        rfl
  | present lo u hi h hsplit hnodes hk =>
    refine ⟨s.setNode u.ptr ⟨k, v, false⟩, ?_, _, h.setNode hk.symm, ?_⟩
    · rw [LinkedSkipList.put, h.found_some hsplit hk]
      rfl
    · show SkipList.putNode k v t.nodes = _
      rw [hnodes, putNode_append hsplit.below_nodes, SkipList.putNode, if_neg (hsplit.others u List.mem_cons_self),
        if_pos hk, List.map_append]
      rfl

/-- **Removing** flags the node of the key, if there is one, and says whether there is. -/
theorem Represents.remove (h : Represents s t) (k : K) :
    ∃ s', s.remove k = some (s', (t.node k).isSome) ∧ Represents s' (t.remove k) := by
  cases h.found k with
  | absent lo hi h hsplit hnodes hne =>
    have habove := hsplit.above (List.pairwise_append.mp h.sorted).2.1 hne
    have hkeys : ∀ n ∈ t.nodes, n.key ≠ k := by
      rw [hnodes]
      simp only [List.mem_append, List.mem_map]
      rintro n (⟨u, hu, rfl⟩ | ⟨u, hu, rfl⟩)
      · exact (hsplit.below u hu).ne
      · exact (habove u hu).ne'
    have hnone : t.node k = none := List.find?_eq_none.mpr fun n hn => by simpa using hkeys n hn
    refine ⟨s, ?_, _, h, ?_⟩
    · rw [LinkedSkipList.remove, h.found_none hsplit hne, hnone]
      rfl
    · show SkipList.removeNode k t.nodes = _
      rw [removeNode_eq_self hkeys, hnodes, List.map_append]
  | present lo u hi h hsplit hnodes hk =>
    have hlo : ∀ n ∈ lo.map Tower.toNode, n.key ≠ k := fun n hn => (hsplit.below_nodes n hn).ne
    have hhi : ∀ n ∈ hi.map Tower.toNode, n.key ≠ k := by
      intro n hn
      obtain ⟨w, hw, rfl⟩ := List.mem_map.mp hn
      exact hk ▸ ((List.pairwise_cons.mp (List.pairwise_append.mp h.sorted).2.1).1 w hw).ne'
    have hsome : (t.node k).isSome = true := by
      rw [SkipList.node, List.find?_isSome, hnodes]
      exact ⟨u.toNode, by simp, by simpa using hk⟩
    refine ⟨s.setNode u.ptr { u.toNode with isTombstone := true }, ?_, _,
      h.setNode (n := { u.toNode with isTombstone := true }) rfl, ?_⟩
    · rw [LinkedSkipList.remove, h.found_some hsplit hk, hsome]
      simp only [Option.bind_eq_bind, Option.bind_some]
      rw [h.nodes u (by simp)]
      rfl
    · have happend : ∀ a b : List (Node K V), SkipList.removeNode k (a ++ b) =
          SkipList.removeNode k a ++ SkipList.removeNode k b := fun _ _ => List.map_append
      have hcons : SkipList.removeNode k (u.toNode :: hi.map Tower.toNode) =
          { u.toNode with isTombstone := true } :: SkipList.removeNode k (hi.map Tower.toNode) := by
        rw [SkipList.removeNode, List.map_cons, if_pos hk, ← SkipList.removeNode]
      show SkipList.removeNode k t.nodes = _
      rw [hnodes, happend, removeNode_eq_self hlo, hcons, removeNode_eq_self hhi, List.map_append]
      rfl

/-- **Getting** and asking whether a key is contained come to what they do in the sorted
list. -/
theorem Represents.get (h : Represents s t) (k : K) : s.get k = some (t.get k) := by
  cases h.found k with
  | absent lo hi h hsplit hnodes hne =>
    rw [LinkedSkipList.get, h.found_none hsplit hne, SkipList.get, seek_nodes hsplit hnodes]
    cases hi with
    | nil => rfl
    | cons u hi =>
      rw [List.map_cons]
      dsimp only
      rw [if_neg fun he => hne u rfl he.1]
      rfl
  | present lo u hi h hsplit hnodes hk =>
    rw [LinkedSkipList.get, h.found_some hsplit hk, SkipList.get, seek_nodes hsplit hnodes]
    simp only [Option.bind_eq_bind, Option.bind_some]
    rw [h.nodes u (by simp), List.map_cons, Option.bind_some]
    dsimp only
    rw [hk]
    cases u.isTombstone <;> simp

theorem Represents.contains (h : Represents s t) (k : K) : s.contains k = some (t.get k).isSome := by
  have hget := h.get k
  rw [LinkedSkipList.get] at hget
  rw [LinkedSkipList.contains]
  cases h.found k with
  | absent lo hi h hsplit hnodes hne =>
    rw [h.found_none hsplit hne] at hget ⊢
    rw [← Option.some.inj hget]
    rfl
  | present lo u hi h hsplit hnodes hk =>
    rw [h.found_some hsplit hk] at hget ⊢
    simp only [Option.bind_eq_bind, Option.bind_some] at hget ⊢
    rw [h.nodes u (by simp), Option.bind_some] at hget ⊢
    rw [← Option.some.inj hget]
    cases u.isTombstone <;> rfl

/-! ### Iterators and levels -/

omit [LinearOrder K] in
theorem visit_eq : ∀ {hi : List (Tower K V)} {x : Place} {fuel : ℕ},
    Links.Chain Place.node (fun x => s.forward x 0) x (hi.map Tower.ptr) →
    (∀ u ∈ hi, s.nodeAt u.ptr = some u.toNode) → hi.length < fuel →
    s.visit fuel (hi.head?.map Tower.ptr) = some (hi.map Tower.toNode)
  | [], _, fuel + 1, _, _, _ => rfl
  | u :: hi, x, fuel + 1, hchain, hnodes, hfuel => by
    obtain ⟨hu, hnodes⟩ := List.forall_mem_cons.mp hnodes
    have hlink : s.forward (.node u.ptr) 0 = some (hi.head?.map Tower.ptr) := by
      rw [← List.head?_map]
      exact hchain.2.next_eq
    rw [List.head?_cons, Option.map_some, visit, hu]
    simp only [Option.bind_eq_bind, Option.bind_some]
    rw [hlink, Option.bind_some, visit_eq hchain.2 hnodes (Nat.lt_of_succ_lt_succ hfuel)]
    rfl

theorem Holds.iterate_eq {lo hi : List (Tower K V)} (h : Holds s (lo ++ hi)) :
    s.iterate (hi.head?.map Tower.ptr) = some (hi.map Tower.toNode) := by
  have hchain := h.chains 0 (Nat.zero_le _)
  rw [chainOf_zero, List.map_append] at hchain
  refine visit_eq hchain.tail (fun u hu => h.nodes u (List.mem_append_right _ hu)) ?_
  rw [h.length, List.length_append]
  omega

/-- **The iterator at a bound** is at the first node that is not below it, and goes through
all of them. -/
theorem Represents.lowerBound (h : Represents s t) (k : K) : ∃ p, s.lowerBound k = some p ∧
    s.iterate p = some (SkipList.seek k t.nodes) ∧ p.bind s.nodeAt = (SkipList.seek k t.nodes).head? := by
  obtain ⟨lo, hi, h, hsplit, hnodes⟩ := h.exists_splits k
  rw [seek_nodes hsplit hnodes]
  refine ⟨hi.head?.map Tower.ptr, ?_, h.iterate_eq, ?_⟩
  · rw [LinkedSkipList.lowerBound, h.search_eq hsplit]
    rfl
  · cases hi with
    | nil => rfl
    | cons u hi => exact h.nodes u (by simp)

theorem Represents.forEach (h : Represents s t) : s.forEach = some t.nodes := by
  obtain ⟨ts, h, hnodes⟩ := h
  have hchain := h.chains 0 (Nat.zero_le _)
  rw [chainOf_zero] at hchain
  have hbegin : s.forward .head 0 = some (ts.map Tower.ptr).head? := hchain.next_eq
  have hwhole : Holds s ([] ++ ts) := h
  rw [LinkedSkipList.forEach, hbegin, Option.bind_some, List.head?_map, hwhole.iterate_eq, hnodes]

theorem Represents.size (h : Represents s t) : s.size = t.nodes.length := by
  obtain ⟨ts, h, hnodes⟩ := h
  rw [h.size, hnodes, List.length_map]

omit [LinearOrder K] in
theorem mapM_nodeAt {ts : List (Tower K V)} (h : ∀ u ∈ ts, s.nodeAt u.ptr = some u.toNode) :
    (ts.map Tower.ptr).mapM s.nodeAt = some (ts.map Tower.toNode) := by
  induction ts with
  | nil => rfl
  | cons u ts ih =>
    obtain ⟨hu, hts⟩ := List.forall_mem_cons.mp h
    rw [List.map_cons, List.mapM_cons, hu, ih hts]
    rfl

/-- **The levels.** Each links nodes of the level below, in ascending order, and the bottom
level links all. -/
theorem Represents.levels (h : Represents s t) : ∃ level : ℕ → List (Node K V),
    (∀ i ≤ MAX_LEVEL, s.levelNodes i = some (level i)) ∧ level 0 = t.nodes ∧
    (∀ i, (level i).Pairwise fun a b => a.key < b.key) ∧ ∀ i, (level (i + 1)).Sublist (level i) := by
  obtain ⟨ts, h, hnodes⟩ := h
  refine ⟨fun i => (ts.filter fun u => i ≤ u.level).map Tower.toNode, fun i hi => ?_, ?_, fun i => ?_, fun i => ?_⟩
  · have hlen : (chainOf ts i).length < s.cells.length + 1 := by
      have := length_chainOf_le ts i
      rw [h.length]
      omega
    rw [levelNodes, Links.items_eq (h.chains i hi) hlen, Option.bind_some, chainOf]
    exact mapM_nodeAt fun u hu => h.nodes u (List.mem_of_mem_filter hu)
  · rw [hnodes]
    simp
  · exact List.pairwise_map.mpr (h.sorted.filter _)
  · refine (List.monotone_filter_right ts fun u hu => ?_).map Tower.toNode
    rw [decide_eq_true_eq] at hu ⊢
    omega

end Refinement

end LinkedSkipList

end Lsm
end Amind
