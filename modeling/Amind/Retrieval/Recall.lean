/-
# Recall

A recall searches the index for ten times as many memories as it is to answer,
looks each of them up, and scores those that the user may see. Then it leaves out
what was superseded: raw memories of derived ones that were, and older memories
whose text overlaps with a fact that was superseded. What ranking leaves is
cleared of superseded and conflicting versions once more.

The scan for superseded facts goes over the edges of all memories, whoever's they
are.
-/
import Amind.Graph.Store
import Amind.Memory.Durable
import Amind.Retrieval.Ranking

namespace Amind
namespace Graph
namespace GraphStore

variable {F : Type} (g : GraphStore F)

def getAllEdges : List (GraphEdge F) := g.adjacency.entries.flatMap (·.2)

def getSupersedes : List (GraphEdge F) := g.getAllEdges.filter fun e => e.type = .supersedes

def getNeighbors (id : UInt64) : List UInt64 := (g.getEdges id).map (·.toId)

end GraphStore
end Graph

namespace Retrieval

open Amind.Core Amind.Memory Amind.Graph

/-- What a recall reads: the records, the graph, and the active vectors of the
index. -/
structure RecallState (F : Type) where
  store : MemoryStore F
  graph : GraphStore F
  index : List (UInt64 × List F)

/-- What a pipeline was made with, and what chance it has: the embedding of
texts, the distance of vectors, a reranker that may be missing, and the draws for
exploration. -/
structure Pipeline (F : Type) where
  embed : Text → Except Text (List F)
  distance : List F → List F → F
  weights : RetrievalWeights F
  entities : EntityPatterns
  staleness : Option StalenessConfig
  reranker : Option (Reranker F) := none
  draw : ℕ → ℕ

/-- What the analysis makes of a question. Without one there is nothing. -/
structure QueryIntent where
  rewrittenQuery : Text := []
  entities : List Text := []

/-- A question, with the readings of the clock for each memory that is looked
up: when it is read and when it is scored. -/
structure RecallQuery where
  query : Text
  agentId : Text
  userId : Text
  topK : ℕ
  readAt : UInt64 → UInt32
  scoredAt : UInt64 → UInt32
  intent : QueryIntent := {}

/-- What is searched for. -/
def RecallQuery.searchQuery (q : RecallQuery) : Text :=
  if q.intent.rewrittenQuery = [] then q.query else q.intent.rewrittenQuery

/-- The user is known. -/
def RecallQuery.named (q : RecallQuery) : Prop := q.userId ≠ [] ∧ q.userId ≠ Utf8.bytes "anonymous"

instance (q : RecallQuery) : Decidable q.named := inferInstanceAs (Decidable (_ ∧ _))

/-- A fact that was superseded, and when the memory that supersedes it now was
created. -/
structure SupersededInfo where
  content : Text
  supersedingTs : UInt32
  deriving DecidableEq, Repr

section Recall

variable {F : Type} [RecallOps F]

/-! ### The candidates -/

/-- A user may see a memory that is not known to be someone else's. -/
def peekScopeMatch (s : MemoryStore F) (id : UInt64) (userId : Text) : Bool :=
  match s.cache.lookup id with
  | none => true
  | some r => r.isAlive && (r.scope ≠ .private || userId = [] || r.userId = userId)

/-- The memories nearest to a vector, with their similarity. -/
def nearest (distance : List F → List F → F) (v : List F) (k : ℕ) (index : List (UInt64 × List F)) :
    List (UInt64 × F) :=
  ((index.insertionSort fun a b => distance v a.2 ≤ distance v b.2).take k).map fun e => (e.1, 1 - distance v e.2)

/-- The vectors that are searched. -/
def searched (x : RecallState F) (q : RecallQuery) : List (UInt64 × List F) :=
  if q.named then x.index.filter fun e => peekScopeMatch x.store e.1 q.userId else x.index

/-- The memory is alive, of the agent, and the user's unless it is shared. -/
def admits (q : RecallQuery) (r : MemoryRecord F) : Bool :=
  r.isAlive && (q.agentId = [] || r.agentId = q.agentId) &&
    (r.scope ≠ .private || q.userId = [] || r.userId = q.userId)

/-- The score of a memory among the candidates so far. -/
def scored (p : Pipeline F) (q : RecallQuery) (r : MemoryRecord F) (similarity : F) (neighbors seen : List UInt64)
    (now : UInt32) : ScoredMemory F :=
  let recency := computeRecencyScore r now
  let keyword := computeKeywordScore r.content q.searchQuery q.intent.entities
  let connected := neighbors.countP fun id => seen.contains id
  let graph := smaller 1 (ofSize connected * 0.2 + ofSize neighbors.length * 0.05)
  { record := r
    totalScore := totalScore p.weights r.importance similarity keyword graph recency
    semanticScore := similarity
    keywordScore := keyword
    graphScore := graph
    recencyScore := recency
    embedding := r.embedding }

/-- The candidates so far, with their ids, and the store with the accesses
counted. -/
structure Gathered (F : Type) where
  store : MemoryStore F
  seen : List UInt64
  candidates : List (ScoredMemory F)

def gatherOne (p : Pipeline F) (q : RecallQuery) (g : GraphStore F) (c : Gathered F) (hit : UInt64 × F) : Gathered F :=
  let got := c.store.get hit.1 (q.readAt hit.1)
  match got.2 with
  | .error _ => { c with store := got.1 }
  | .ok r =>
    if admits q r then
      { store := got.1
        seen := c.seen ++ [hit.1]
        candidates := c.candidates ++ [scored p q r hit.2 (g.getNeighbors hit.1) c.seen (q.scoredAt hit.1)] }
    else { c with store := got.1 }

def gather (p : Pipeline F) (q : RecallQuery) (g : GraphStore F) (s : MemoryStore F) (hits : List (UInt64 × F)) :
    Gathered F :=
  hits.foldl (gatherOne p q g) ⟨s, [], []⟩

/-! ### What was superseded -/

/-- The raw memories of the derived ones among the candidates. -/
def derivedParents (ms : List (ScoredMemory F)) : List UInt64 :=
  (ms.filter fun m => m.record.layer = .derived ∧ m.record.parentId ≠ 0).map (·.record.parentId)

def withoutRaw (parents : List UInt64) (ms : List (ScoredMemory F)) : List (ScoredMemory F) :=
  ms.filter fun m => ¬ (m.record.layer = .raw ∧ m.record.memoryId ∈ parents)

/-- The raw memories of derived ones that were superseded. -/
def supersededParents (s : MemoryStore F) (edges : List (GraphEdge F)) : List UInt64 :=
  edges.filterMap fun e => (s.load e.toId).bind fun r =>
    if r.layer = .derived ∧ r.parentId ≠ 0 then some r.parentId else none

/-- Which memory superseded another: the last edge tells. -/
def supersededBy (edges : List (GraphEdge F)) (id : UInt64) : Option UInt64 :=
  (edges.reverse.find? fun e => e.toId = id).map (·.fromId)

/-- Walk up to the last memory that is alive. Every step but the last visits
another source of an edge. -/
def climb (s : MemoryStore F) (edges : List (GraphEdge F)) : ℕ → List UInt64 → UInt64 → UInt64 → UInt64
  | 0, _, _, terminal => terminal
  | n + 1, visited, cur, terminal =>
    if cur ∈ visited then terminal
    else
      match supersededBy edges cur with
      | none => terminal
      | some next =>
        climb s edges n (cur :: visited) next (if (s.load next).any MemoryRecord.isAlive then next else terminal)

/-- What is collected for a superseded memory: its content and that of the memory
it was derived from. -/
def collect (s : MemoryStore F) (ts : UInt32) (r : MemoryRecord F) (visited : List UInt64)
    (infos : List SupersededInfo) : List UInt64 × List SupersededInfo :=
  if r.layer = .derived then
    match if r.parentId = 0 then none else s.load r.parentId with
    | some parent =>
      if r.parentId ∈ visited then (visited, infos ++ [⟨r.content, ts⟩])
      else (r.parentId :: visited, infos ++ [⟨r.content, ts⟩, ⟨parent.content, ts⟩])
    | none => (visited, infos ++ [⟨r.content, ts⟩])
  else (visited, infos)

/-- Walk down from the memories in the queue. Every memory is gone on from once, so
no more are queued than there are edges. -/
def descend (s : MemoryStore F) (g : GraphStore F) (ts : UInt32) :
    ℕ → List UInt64 → List UInt64 → List SupersededInfo → List UInt64 × List SupersededInfo
  | 0, _, visited, infos => (visited, infos)
  | _, [], visited, infos => (visited, infos)
  | n + 1, cur :: queue, visited, infos =>
    if cur ∈ visited then descend s g ts n queue visited infos
    else
      match s.load cur with
      | none => descend s g ts n queue (cur :: visited) infos
      | some r =>
        let c := collect s ts r (cur :: visited) infos
        let older := (g.getEdges cur).filter fun e => e.type = .supersedes ∧ e.toId ∉ c.1
        descend s g ts n (queue ++ older.map (·.toId)) c.1 c.2

/-- What one edge adds. -/
def supersededOne (s : MemoryStore F) (g : GraphStore F) (edges : List (GraphEdge F))
    (c : List UInt64 × List SupersededInfo) (e : GraphEdge F) : List UInt64 × List SupersededInfo :=
  let terminal := climb s edges (edges.length + 2) [] e.fromId e.fromId
  match s.load terminal with
  | some t => if t.isAlive then descend s g t.createdAt (edges.length + 1) [e.toId] c.1 c.2 else c
  | none => c

def supersededInfos (s : MemoryStore F) (g : GraphStore F) (edges : List (GraphEdge F)) : List SupersededInfo :=
  (edges.foldl (supersededOne s g edges) ([], [])).2

/-- The memory is older than what superseded a fact, and its text overlaps with
the fact. -/
def echoes (infos : List SupersededInfo) (r : MemoryRecord F) : Bool :=
  let bigrams := makeBigrams r.content
  bigrams ≠ [] && infos.any fun i =>
    let old := makeBigrams i.content
    old ≠ [] && decide (r.createdAt < i.supersedingTs) &&
      decide (0.35 ≤ (ofSize (bigrams.countP fun b => old.contains b) / ofSize old.length : F))

/-! ### After ranking -/

def oldMarkers : List Text :=
  ["旧", "之前", "以前", "原来", "过去", "历史", "曾经", "earlier", "previous", "old", "former", "past"].map Utf8.bytes

def contrastiveMarkers : List Text :=
  ["但", "不过", "现在", "如今", "已经", "now", "but", "however", "currently"].map Utf8.bytes

/-- The text speaks of the past and not of a change. -/
def contentHasOldMarker (s : Text) : Bool :=
  (oldMarkers.any fun m => occurs m s) && !(contrastiveMarkers.any fun m => occurs m s)

/-- What the edges of one result suppress. -/
def suppressByEdges (g : GraphStore F) (ranked : List (ScoredMemory F)) (m : ScoredMemory F) : List UInt64 :=
  (g.getEdges m.record.memoryId).flatMap fun e =>
    if (ranked.map (·.record.memoryId)).contains e.toId then
      if e.type = .supersedes then [e.toId]
      else if e.type = .conflictsWith then
        match ranked.find? fun peer => peer.record.memoryId = e.toId with
        | some peer =>
          if peer.record.createdAt ≤ m.record.createdAt then [peer.record.memoryId] else [m.record.memoryId]
        | none => []
      else []
    else []

/-- And its parent, if that is a result. -/
def suppressByParent (ranked : List (ScoredMemory F)) (m : ScoredMemory F) : List UInt64 :=
  if m.record.parentId ≠ 0 ∧ (ranked.map (·.record.memoryId)).contains m.record.parentId then [m.record.parentId] else []

def similarity (a b : List F) : F :=
  if a.length = b.length then
    if 0 < dotProduct a a ∧ 0 < dotProduct b b then dotProduct a b / (sqrt (dotProduct a a) * sqrt (dotProduct b b)) else 0
  else 0

/-- Of two similar results, suppress the one that is an old version of the
other. -/
def suppressOld (m : ScoredMemory F) (suppress : List UInt64) (m' : ScoredMemory F) : List UInt64 :=
  if m'.record.memoryId ∈ suppress then suppress
  else
    let old := contentHasOldMarker m.record.content
    if old = contentHasOldMarker m'.record.content ∨ m.embedding = [] ∨ m'.embedding = [] ∨
        ¬ 0.70 ≤ similarity m.embedding m'.embedding then suppress
    else
      let marker := if old then m else m'
      let plain := if old then m' else m
      if plain.record.createdAt ≤ marker.record.createdAt then
        if marker.totalScore + 0.1 < plain.totalScore then suppress else plain.record.memoryId :: suppress
      else marker.record.memoryId :: suppress

def suppressOlds : List (ScoredMemory F) → List UInt64 → List UInt64
  | [], suppress => suppress
  | m :: ms, suppress =>
    if m.record.memoryId ∈ suppress then suppressOlds ms suppress
    else suppressOlds ms (ms.foldl (suppressOld m) suppress)

def withoutSuppressed (g : GraphStore F) (ranked : List (ScoredMemory F)) : List (ScoredMemory F) :=
  if 1 < ranked.length then
    let suppress := suppressOlds ranked (ranked.flatMap fun m => suppressByEdges g ranked m ++
      suppressByParent ranked m)
    ranked.filter fun m => m.record.memoryId ∉ suppress
  else ranked

/-! ### A recall -/

/-- The candidates that are ranked. -/
def current (s : MemoryStore F) (g : GraphStore F) (candidates : List (ScoredMemory F)) : List (ScoredMemory F) :=
  let edges := g.getSupersedes
  let ms := withoutRaw (supersededParents s edges) (withoutRaw (derivedParents candidates) candidates)
  let infos := supersededInfos s g edges
  ms.filter fun m => !echoes infos m.record

/-- What is answered for what the search has found. -/
def recallHits (p : Pipeline F) (x : RecallState F) (q : RecallQuery) (hits : List (UInt64 × F)) :
    List (ScoredMemory F) :=
  let c := gather p q x.graph x.store hits
  let ranked := rankAndFuse p.entities p.reranker p.draw (current c.store x.graph c.candidates) q.topK
  applyStaleness p.entities p.staleness (withoutSuppressed x.graph ranked)

/-- What is answered for a vector. -/
def recallVector (p : Pipeline F) (x : RecallState F) (q : RecallQuery) (v : List F) : List (ScoredMemory F) :=
  recallHits p x q (nearest p.distance v (q.topK * 10 % 2 ^ 64) (searched x q))

def Pipeline.recall (p : Pipeline F) (x : RecallState F) (q : RecallQuery) : Except Text (List (ScoredMemory F)) :=
  (p.embed q.searchQuery).map (recallVector p x q)

end Recall

end Retrieval
end Amind
