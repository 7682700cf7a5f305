/-
# Lists by pages

The memories of a store and the edges of a graph are listed by pages, and the
handlers of the two lists do the same once more with what they collected from the
agents. A request for memories has its page and the length of a page checked, one for
edges has not; three of the four loops count with an `int`.

`pages_iff` says which requests stay in the list, and when the first pages are what
the list begins with.
-/
import Amind.Config.Variables
import Amind.Graph.Store
import Amind.Lib.Paging
import Amind.Memory.Enumerate
import Amind.Server.Ports
import Amind.Server.QueryParams

namespace Amind
namespace Server
namespace Lists

open Amind.Core Amind.Memory Amind.Graph Amind.Paging Amind.Checked

structure AgentStore (F : Type) where
  memory : MemoryStore F
  graph : GraphStore F

structure Engine (F : Type) where
  listAgents : List Text
  getAgentStore : Text → AgentStore F

/-- A way to sort records, the newest first. -/
structure NewestFirst (F : Type) where
  sort : List (MemoryRecord F) → List (MemoryRecord F)
  perm : ∀ l, (sort l).Perm l
  sorted : ∀ l, (sort l).Pairwise fun a b => b.createdAt ≤ a.createdAt

structure EdgeListResult (F : Type) where
  edges : List (GraphEdge F)
  total : ℕ
  page : ℤ
  perPage : ℤ

variable {F : Type} (o : NewestFirst F)

/-! ### The lists of a store -/

/-- The records that are asked for. -/
def matched (s : MemoryStore F) (f : ListFilter) : List (MemoryRecord F) :=
  o.sort (s.scanAll.filter (MemoryStore.listed f))

def listMemories (s : MemoryStore F) (f : ListFilter) : Checked Empty (ListResult F) := do
  let records ← intPage (matched o s f) f.page f.perPage
  .ok { records := records, total := (matched o s f).length, page := f.page, perPage := f.perPage }

/-- The edges of a graph, each at its source. -/
def forwardEdges (g : GraphStore F) : List (GraphEdge F) :=
  g.adjacency.entries.flatMap fun node => node.2.filter fun e => e.fromId = node.1

def listEdges (g : GraphStore F) (page perPage : ℤ) : Checked Empty (EdgeListResult F) := do
  let edges ← intPage (forwardEdges g) page perPage
  .ok { edges := edges, total := (forwardEdges g).length, page := page, perPage := perPage }

/-! ### The requests -/

/-- A parameter that is an `int`, if it is there. -/
def intParam (value : Text) (otherwise : ℤ) : Option ℤ := if value = [] then some otherwise else Config.stoi value

/-- What a request for memories asks for. -/
def listFilter (path : Text) : Except Refusal ListFilter :=
  match intParam (extractQueryParam path (Utf8.bytes "page")) 1,
    intParam (extractQueryParam path (Utf8.bytes "per_page")) 50 with
  | some page, some perPage =>
    if page < 1 ∨ perPage < 1 ∨ 10000 < perPage then .error ⟨400, "page must be >= 1, per_page must be 1-10000"⟩
    else
      let owner := extractQueryParam path (Utf8.bytes "owner")
      let tombstone := extractQueryParam path (Utf8.bytes "include_tombstone")
      .ok
        { page := page
          perPage := perPage
          scopeFilter := if owner ≠ [] then owner else extractQueryParam path (Utf8.bytes "scope")
          memoryTypeFilter := extractQueryParam path (Utf8.bytes "memory_type")
          phaseFilter := extractQueryParam path (Utf8.bytes "phase")
          query := extractQueryParam path (Utf8.bytes "q")
          userIdFilter := extractQueryParam path (Utf8.bytes "user_id")
          layerFilter := extractQueryParam path (Utf8.bytes "layer")
          tierFilter := extractQueryParam path (Utf8.bytes "tier")
          includeTombstone := tombstone = Utf8.bytes "1" ∨ tombstone = Utf8.bytes "true" }
  | _, _ => .error ⟨400, "invalid page/per_page parameter"⟩

variable (en : Engine F)

/-- The records of all agents that are asked for, at most 5000 of each and in all. -/
def allRecords (f : ListFilter) : Checked Empty (List (MemoryRecord F)) := do
  let results ← en.listAgents.mapM fun aid =>
    listMemories o (en.getAgentStore aid).memory { f with page := 1, perPage := 5000 }
  .ok ((o.sort (results.flatMap (·.records))).take 5000)

/-- A page of what was collected. -/
def memoriesPage (records : List (MemoryRecord F)) (page perPage : ℤ) : Checked Empty (ListResult F) := do
  let shown ← sizePage records page perPage
  .ok { records := shown, total := records.length, page := page, perPage := perPage }

def handleListMemories (path : Text) : Checked Empty (Except Refusal (ListResult F)) :=
  let agentId := extractQueryParam path (Utf8.bytes "agent_id")
  match listFilter path with
  | .error e => .ok (.error e)
  | .ok f => do
    if agentId = [] then
      let records ← allRecords o en f
      .ok (.ok (← memoriesPage records f.page f.perPage))
    else .ok (.ok (← listMemories o (en.getAgentStore agentId).memory f))

/-- The memory is there and alive. -/
def alive (s : MemoryStore F) (id : UInt64) : Bool :=
  match s.peek id with
  | .ok r => r.isAlive
  | .error _ => false

/-- The edges of an agent between memories that are alive. -/
def collectEdges (store : AgentStore F) : Checked Empty (List (GraphEdge F)) := do
  let all ← listEdges store.graph 1 100000
  .ok (all.edges.filter fun e => alive store.memory e.fromId && alive store.memory e.toId)

/-- The stores that a request is about: of one agent, or of all. -/
def asked (agentId : Text) : List (AgentStore F) :=
  if agentId = [] then en.listAgents.map en.getAgentStore else [en.getAgentStore agentId]

/-- The edges of the stores, of one user if one is named. -/
def liveEdges (stores : List (AgentStore F)) (userId : Text) : Checked Empty (List (GraphEdge F)) := do
  let live ← stores.mapM collectEdges
  if userId = [] then .ok live.flatten
  else
    let memories ← stores.mapM fun store =>
      listMemories o store.memory { page := 1, perPage := 50000, userIdFilter := userId }
    let ids := memories.flatMap fun result => result.records.map (·.memoryId)
    .ok (live.flatten.filter fun e => e.fromId ∈ ids ∨ e.toId ∈ ids)

/-- A page of the edges that were collected. -/
def edgesPage (edges : List (GraphEdge F)) (page perPage : ℤ) : Checked Empty (EdgeListResult F) := do
  let shown ← intPage edges page perPage
  .ok { edges := shown, total := edges.length, page := page, perPage := perPage }

def handleListEdges (path : Text) : Checked Empty (Except Refusal (EdgeListResult F)) :=
  match intParam (extractQueryParam path (Utf8.bytes "page")) 1,
    intParam (extractQueryParam path (Utf8.bytes "per_page")) 100 with
  | some page, some perPage => do
    let edges ← liveEdges o (asked en (extractQueryParam path (Utf8.bytes "agent_id")))
      (extractQueryParam path (Utf8.bytes "user_id"))
    .ok (.ok (← edgesPage edges page perPage))
  | _, _ => .ok (.error ⟨400, "invalid page/per_page parameter"⟩)

/-! ### Which requests stay in the list -/

variable {o en}

/-- The first page begins at the first item. -/
theorem staysIn_first (n : ℕ) (perPage : ℤ) : StaysIn n 1 perPage := by
  have hzero : offset 1 perPage = 0 := by simp [offset, wrap]
  exact .inl hzero.ge

theorem listMemories_returns {s : MemoryStore F} {f : ListFilter}
    (h : StaysIn (matched o s f).length f.page f.perPage) : ∃ r, listMemories o s f = .ok r := by
  obtain ⟨records, hrecords⟩ := intPage_returns (matched o s f) h
  unfold listMemories
  rw [hrecords]
  exact ⟨_, rfl⟩

theorem collectEdges_returns (store : AgentStore F) : ∃ edges, collectEdges store = .ok edges := by
  obtain ⟨edges, hedges⟩ := intPage_returns (forwardEdges store.graph) (staysIn_first _ 100000)
  unfold collectEdges listEdges
  rw [hedges]
  exact ⟨_, rfl⟩

theorem liveEdges_returns (stores : List (AgentStore F)) (userId : Text) :
    ∃ edges, liveEdges o stores userId = .ok edges := by
  obtain ⟨live, hlive⟩ := mapM_returns stores fun store _ => collectEdges_returns store
  unfold liveEdges
  rw [hlive]
  by_cases hu : userId = []
  · exact ⟨live.flatten, if_pos hu⟩
  · obtain ⟨memories, hmemories⟩ := mapM_returns stores fun store _ =>
      listMemories_returns (o := o) (s := store.memory) (f := { page := 1, perPage := 50000, userIdFilter := userId })
        (staysIn_first _ _)
    rw [ok_bind, if_neg hu, hmemories]
    exact ⟨_, rfl⟩

theorem allRecords_returns (f : ListFilter) : ∃ records, allRecords o en f = .ok records := by
  obtain ⟨results, hresults⟩ := mapM_returns en.listAgents fun aid _ =>
    listMemories_returns (o := o) (s := (en.getAgentStore aid).memory) (f := { f with page := 1, perPage := 5000 })
      (staysIn_first _ _)
  unfold allRecords
  rw [hresults]
  exact ⟨_, rfl⟩

variable (o en) in
/-- A request for the memories of one agent has a page that the loop finds in the
list. -/
def MemoriesStay (path : Text) : Prop :=
  ∀ f, listFilter path = .ok f → extractQueryParam path (Utf8.bytes "agent_id") ≠ [] →
    StaysIn (matched o (en.getAgentStore (extractQueryParam path (Utf8.bytes "agent_id"))).memory f).length f.page
      f.perPage

variable (o en) in
/-- A request for edges has a page that the loop finds in the list. -/
def EdgesStay (path : Text) : Prop :=
  ∀ page perPage edges, intParam (extractQueryParam path (Utf8.bytes "page")) 1 = some page →
    intParam (extractQueryParam path (Utf8.bytes "per_page")) 100 = some perPage →
    liveEdges o (asked en (extractQueryParam path (Utf8.bytes "agent_id")))
      (extractQueryParam path (Utf8.bytes "user_id")) = .ok edges → StaysIn edges.length page perPage

theorem safe_listMemories_iff {s : MemoryStore F} {f : ListFilter} :
    Safe (listMemories o s f) ↔ StaysIn (matched o s f).length f.page f.perPage := by
  unfold listMemories
  rw [safe_bind_ok, safe_intPage_iff]

theorem safe_edgesPage_iff {edges : List (GraphEdge F)} {page perPage : ℤ} :
    Safe (edgesPage edges page perPage) ↔ StaysIn edges.length page perPage := by
  unfold edgesPage
  rw [safe_bind_ok, safe_intPage_iff]

theorem safe_handleListMemories_iff (path : Text) : Safe (handleListMemories o en path) ↔ MemoriesStay o en path := by
  unfold handleListMemories MemoriesStay
  dsimp only
  cases hf : listFilter path with
  | error e => exact iff_of_true trivial fun _ h => by cases h
  | ok f =>
    dsimp only
    by_cases hagent : extractQueryParam path (Utf8.bytes "agent_id") = []
    · rw [if_pos hagent]
      refine iff_of_true ?_ fun _ _ h => absurd hagent h
      obtain ⟨records, hrecords⟩ : ∃ records, allRecords o en f = .ok records := allRecords_returns f
      unfold memoriesPage
      rw [hrecords, ok_bind, safe_bind_ok, safe_bind_ok]
      exact safe_sizePage _ _ _
    · rw [if_neg hagent, safe_bind_ok, safe_listMemories_iff]
      constructor
      · rintro h f' hf' -
        exact Except.ok.inj hf' ▸ h
      · intro h
        exact h f rfl hagent

theorem safe_handleListEdges_iff (path : Text) : Safe (handleListEdges o en path) ↔ EdgesStay o en path := by
  unfold handleListEdges EdgesStay
  cases hpage : intParam (extractQueryParam path (Utf8.bytes "page")) 1 with
  | none => exact iff_of_true trivial fun _ _ _ h => by cases h
  | some page =>
    cases hper : intParam (extractQueryParam path (Utf8.bytes "per_page")) 100 with
    | none => exact iff_of_true trivial fun _ _ _ _ h => by cases h
    | some perPage =>
      obtain ⟨edges, hedges⟩ := liveEdges_returns (o := o)
        (asked en (extractQueryParam path (Utf8.bytes "agent_id"))) (extractQueryParam path (Utf8.bytes "user_id"))
      dsimp only
      rw [hedges, ok_bind, safe_bind_ok, safe_edgesPage_iff]
      constructor
      · intro h page' perPage' edges' hp hpp he
        cases hp
        cases hpp
        cases he
        exact h
      · intro h
        exact h page perPage edges rfl rfl rfl

/-! ### Pages one after the other -/

/-- The first pages are what the list begins with. -/
def Concatenates {α : Type} (items : List α) (pageOf : ℤ → Checked Empty (List α)) (perPage pages : ℕ) : Prop :=
  ∀ p ≤ pages, collect pageOf p = .ok (items.take (p * perPage))

variable (o) in
/-- The records of a page of a store. -/
def recordsAt (s : MemoryStore F) (f : ListFilter) (perPage : ℕ) (page : ℤ) :
    Checked Empty (List (MemoryRecord F)) := do
  let result ← listMemories o s { f with page := page, perPage := perPage }
  .ok result.records

/-- The edges of a page of a graph. -/
def edgesAt (g : GraphStore F) (perPage : ℕ) (page : ℤ) : Checked Empty (List (GraphEdge F)) := do
  let result ← listEdges g page perPage
  .ok result.edges

/-- The edges of a page of those that were collected. -/
def collectedAt (edges : List (GraphEdge F)) (perPage : ℕ) (page : ℤ) : Checked Empty (List (GraphEdge F)) := do
  let result ← edgesPage edges page perPage
  .ok result.edges

/-- The records of a page of those that were collected. -/
def aggregateAt (records : List (MemoryRecord F)) (perPage : ℕ) (page : ℤ) :
    Checked Empty (List (MemoryRecord F)) := do
  let result ← memoriesPage records page perPage
  .ok result.records

/-- A value that is packed and unpacked. -/
theorem bind_ok_bind {α β : Type} (x : Checked Empty α) (f : α → β) (g : β → α) (h : ∀ a, g (f a) = a) :
    ((x >>= fun a => .ok (f a)) >>= fun b => .ok (g b)) = x := by
  cases x with
  | error e => rfl
  | ok a => exact congrArg _ (h a)

theorem recordsAt_eq (s : MemoryStore F) (f : ListFilter) (perPage : ℕ) :
    recordsAt o s f perPage = (intPage (matched o s f) · perPage) :=
  funext fun _ => bind_ok_bind _ _ _ fun _ => rfl

theorem edgesAt_eq (g : GraphStore F) (perPage : ℕ) : edgesAt g perPage = (intPage (forwardEdges g) · perPage) :=
  funext fun _ => bind_ok_bind _ _ _ fun _ => rfl

theorem collectedAt_eq (edges : List (GraphEdge F)) (perPage : ℕ) :
    collectedAt edges perPage = (intPage edges · perPage) :=
  funext fun _ => bind_ok_bind _ _ _ fun _ => rfl

theorem aggregateAt_eq (records : List (MemoryRecord F)) (perPage : ℕ) :
    aggregateAt records perPage = (sizePage records · perPage) :=
  funext fun _ => bind_ok_bind _ _ _ fun _ => rfl

/-- Records of one time stay in their order. -/
def stable (F : Type) : NewestFirst F where
  sort l := l.insertionSort fun a b => b.createdAt ≤ a.createdAt
  perm l := List.perm_insertionSort _ l
  sorted l := by
    have : Std.Total fun a b : MemoryRecord F => b.createdAt ≤ a.createdAt := ⟨fun _ _ => UInt32.le_total _ _⟩
    have : IsTrans (MemoryRecord F) fun a b => b.createdAt ≤ a.createdAt :=
      ⟨fun _ _ _ hab hbc => UInt32.le_trans hbc hab⟩
    exact List.pairwise_insertionSort _ l

/-- **When pages are exact and in bounds.** A request reads outside the list unless
its page stays in it. The first pages of a list, by each of the four loops, are what
the list begins with if each fits. -/
theorem pages_iff (path : Text) (s : MemoryStore F) (f : ListFilter) (g : GraphStore F) (edges : List (GraphEdge F))
    (records : List (MemoryRecord F)) {perPage pages : ℕ} (hn : 0 < perPage) (hperPage : perPage < 2 ^ 31)
    (hpages : pages < 2 ^ 31) :
    (Safe (handleListMemories o en path) ↔ MemoriesStay o en path) ∧
    (Safe (handleListEdges o en path) ↔ EdgesStay o en path) ∧
    (Concatenates (matched o s f) (recordsAt o s f perPage) perPage pages ↔
      ∀ k, 1 ≤ k → k ≤ pages → IntFits (matched o s f).length k perPage) ∧
    (Concatenates (forwardEdges g) (edgesAt g perPage) perPage pages ↔
      ∀ k, 1 ≤ k → k ≤ pages → IntFits (forwardEdges g).length k perPage) ∧
    (Concatenates edges (collectedAt edges perPage) perPage pages ↔
      ∀ k, 1 ≤ k → k ≤ pages → IntFits edges.length k perPage) ∧
    (Concatenates (records.take 5000) (aggregateAt (records.take 5000) perPage) perPage pages ↔
      ∀ k, 1 ≤ k → k ≤ pages → SizeFits (records.take 5000).length k perPage) := by
  have hcapped : (records.take 5000).length ≤ 2 ^ 31 := by
    rw [List.length_take]
    omega
  unfold Concatenates
  rw [recordsAt_eq, edgesAt_eq, collectedAt_eq, aggregateAt_eq]
  exact ⟨safe_handleListMemories_iff path, safe_handleListEdges_iff path, intPages_iff hn hperPage hpages,
    intPages_iff hn hperPage hpages, intPages_iff hn hperPage hpages, sizePages_iff hn hpages hcapped⟩

/-! ### A server without agents -/

def empty : Engine UInt32 where
  listAgents := []
  getAgentStore _ := ⟨MemoryStore.new fourCached, {}⟩

/-- An edge from one memory to the next. -/
def edgeFrom (i : UInt64) : GraphEdge UInt32 := ⟨i, i + 1, .related, 0, 0⟩

/-- Three edges are what two pages of two of them begin with. -/
theorem concatenates_three : Concatenates [edgeFrom 1, edgeFrom 2, edgeFrom 3]
    (collectedAt [edgeFrom 1, edgeFrom 2, edgeFrom 3] 2) 2 2 := by
  obtain ⟨-, -, -, -, hcollected, -⟩ := @pages_iff _ (stable UInt32) empty [] (MemoryStore.new fourCached) {} {}
    [edgeFrom 1, edgeFrom 2, edgeFrom 3] [] 2 2 (by decide) (by decide) (by decide)
  refine hcollected.mpr fun k hk hle => intFits_of_lt (by decide) hk (by omega) ?_
  have := Nat.mul_le_mul_right 2 (Nat.sub_le_sub_right hle 1)
  omega

/-- The page before the first is read outside the list, also if there is nothing in
it. -/
theorem unsafe_page_zero : ¬ Safe (handleListEdges (stable UInt32) empty (Utf8.bytes "/v1/graph/edges?page=0")) := by
  rw [safe_handleListEdges_iff]
  intro h
  have hstays := h 0 100 [] (by decide +kernel) (by decide +kernel) (by decide +kernel)
  exact absurd hstays (by decide)

end Lists
end Server
end Amind
