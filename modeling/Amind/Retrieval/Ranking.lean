/-
# Ranking what was found

The candidates of a recall have scores, which a reranker may replace. Few of them
are ordered by score, with no more than two of one entity in a row while there are
others; of many, the next is always the one whose score is best less its likeness to
those chosen, and the last place goes to a draw. Aggregates that a newer memory
contradicts are dropped at the end.

Who is chosen of many is moved out of its place, where a memory without texts and
vectors stays behind.

All of this looks at the candidates alone.
-/
import Mathlib.Data.List.Dedup
import Mathlib.Data.List.Sort
import Amind.Core.FloatOps
import Amind.Lib.Best

namespace Amind
namespace Retrieval

open Amind.Core Amind.Best

/-- What scores need besides: exponentials, sizes as floats, and the least
float. -/
class RecallOps (F : Type) extends FloatOps F where
  exp : F → F
  ofSize : ℕ → F
  lowest : F

export RecallOps (exp ofSize lowest)

/-- Rationals, for runs that take no roots and no exponentials that matter. -/
def Fixed : Type := ℚ

instance Fixed.recallOps : RecallOps Fixed where
  toFloatOps := FloatOps.rational
  exp := fun _ => (1 : ℚ)
  ofSize := fun n => (n : ℚ)
  lowest := (-340282366920938463463374607431768211456 : ℚ)

structure ScoredMemory (F : Type) where
  record : MemoryRecord F
  totalScore : F
  semanticScore : F
  keywordScore : F
  graphScore : F
  recencyScore : F
  embedding : List F

structure RetrievalWeights (F : Type) where
  semantic : F
  keyword : F
  graph : F
  recency : F
  importance : F
  recencyGateEnabled : Bool := false

/-- The patterns of entity ids in a text, by name and with the ids they match,
and which id of a set comes first. -/
structure EntityPatterns where
  extractIds : Text → List (String × List Text)
  first : List Text → Text

/-- Patterns that match nothing. -/
def EntityPatterns.silent : EntityPatterns := ⟨fun _ => [], fun ids => ids.headD []⟩

/-! ### Texts -/

/-- How many bytes a character takes, by its first. -/
def charWidth (b : UInt8) : ℕ :=
  if b &&& 0xE0 = 0xC0 then 2 else if b &&& 0xF0 = 0xE0 then 3 else if b &&& 0xF8 = 0xF0 then 4 else 1

def charsFrom : ℕ → Text → List Text
  | 0, _ => []
  | _, [] => []
  | n + 1, b :: s =>
    if (b :: s).length < charWidth b then []
    else (b :: s).take (charWidth b) :: charsFrom n ((b :: s).drop (charWidth b))

/-- The characters of a text, up to one that is cut. -/
def utf8Chars (s : Text) : List Text := charsFrom s.length s

/-- The pairs of characters next to each other, each once. -/
def pairs (chars : List Text) : List Text := ((chars.zip chars.tail).map fun p => p.1 ++ p.2).dedup

def toLower (b : UInt8) : UInt8 := if 65 ≤ b ∧ b ≤ 90 then b + 32 else b

def makeBigrams (s : Text) : List Text := pairs (utf8Chars s)

def charBigrams (s : Text) : List Text :=
  pairs ((utf8Chars s).map fun ch => if ch.length = 1 then ch.map toLower else ch)

def isSpace (b : UInt8) : Bool := b = 0x20 ∨ 0x09 ≤ b ∧ b ≤ 0x0D

/-- The words of a text, without blanks. -/
def words (s : Text) : List Text := (s.splitOnP isSpace).filter (· ≠ [])

/-- The text occurs in the other. -/
def occurs (part s : Text) : Bool := s.tails.any part.isPrefixOf

section Scores

variable {F : Type} [RecallOps F]

/-- The greater of two floats, the first if they are equal. -/
def larger (a b : F) : F := if a < b then b else a

/-- The smaller of two floats, the first if they are equal. -/
def smaller (a b : F) : F := if b < a then b else a

/-- The share of the parts that occur. -/
def share (parts : List Text) (p : Text → Bool) : F :=
  if parts = [] then 0 else ofSize (parts.countP p) / ofSize parts.length

def computeKeywordScore (content query : Text) (entities : List Text) : F :=
  let keywords := ((words query).filter fun w => 2 ≤ w.length) ++ entities.filter (· ≠ [])
  let lowerContent := content.map toLower
  larger (share keywords fun k => occurs (k.map toLower) lowerContent)
    (share (charBigrams query) fun b => (charBigrams content).contains b)

def computeRecencyScore (r : MemoryRecord F) (now : UInt32) : F :=
  exp ((0 - ofUInt32 (now - r.lastAccessed) / 3600.0) / (24.0 * 30.0))

def totalScore (w : RetrievalWeights F) (importance semantic keyword graph recency : F) : F :=
  if w.recencyGateEnabled then
    (w.semantic * semantic + w.keyword * keyword + w.graph * graph + w.importance * importance) * recency
  else
    w.semantic * semantic + w.keyword * keyword + w.recency * recency + w.graph * graph + w.importance * importance

def dotProduct (a b : List F) : F := (a.zip b).foldl (fun s x => s + x.1 * x.2) 0

def cosineDistance (a b : List F) : F :=
  let denominator := sqrt (dotProduct a a) * sqrt (dotProduct b b)
  1 - if denominator < 1e-10 then 0 else dotProduct a b / denominator

end Scores

/-! ### Ranking -/

section Ranking

variable {F : Type} [RecallOps F] (p : EntityPatterns)

/-- The ids of the entities in a memory. -/
def entityIds (m : ScoredMemory F) : List Text := ((p.extractIds m.record.content).flatMap (·.2)).dedup

def entityKey (m : ScoredMemory F) : Text := if entityIds p m = [] then [] else p.first (entityIds p m)

/-- Take the first memory that is of another entity than a run of two, or else
the first one. -/
def rebalance : ℕ → List (ScoredMemory F) → Text → ℕ → List (ScoredMemory F)
  | 0, _, _, _ => []
  | n + 1, order, lastKey, streak =>
    let i := (order.findIdx? fun m => ¬ (2 ≤ streak ∧ lastKey ≠ [] ∧ entityKey p m = lastKey)).getD 0
    match order[i]? with
    | none => []
    | some m =>
      let key := entityKey p m
      if key ≠ [] ∧ key = lastKey then m :: rebalance n (order.eraseIdx i) lastKey (streak + 1)
      else m :: rebalance n (order.eraseIdx i) key 1

/-! ### Selecting -/

/-- What stays behind of a memory that is moved: texts and lists are gone. -/
def ScoredMemory.movedFrom (m : ScoredMemory F) : ScoredMemory F :=
  { m with
    record := { m.record with
      userId := []
      agentId := []
      embedding := []
      content := []
      userMetadata := .empty
      lineageParents := [] }
    embedding := [] }

/-- The candidates as they are left, and those that were taken, with their places. -/
structure Selection (F : Type) where
  candidates : List (ScoredMemory F)
  selected : List (ScoredMemory F × ℕ)

namespace Selection

variable (s : Selection F)

def used (i : ℕ) : Bool := (s.selected.map (·.2)).contains i

/-- Those that are left, with their places. -/
def unused : List (ScoredMemory F × ℕ) := s.candidates.zipIdx.filter fun m => !s.used m.2

def unusedIndices : List ℕ := s.unused.map (·.2)

/-- Move the memory out of a place. -/
def take (i : ℕ) : Selection F :=
  match s.candidates[i]? with
  | none => s
  | some m => ⟨s.candidates.set i m.movedFrom, s.selected ++ [(m, i)]⟩

end Selection

def sharesEntity (ids ids' : List Text) : Bool := ids.any fun id => ids'.contains id

/-- How much a memory is like one that was taken already. The entities are those
that the memories had in their places before. -/
def likeness (entities : List (List Text)) (s : Selection F) (m : ScoredMemory F × ℕ) : F :=
  s.selected.foldl (fun sim c =>
    let sim := if sharesEntity (entities.getD m.2 []) (entities.getD c.2 []) then larger sim 1 else sim
    if m.1.embedding = [] ∨ c.1.embedding = [] ∨ c.1.embedding.length ≠ m.1.embedding.length then sim
    else larger sim (1 - cosineDistance m.1.embedding c.1.embedding)) 0

def mmr (entities : List (List Text)) (maxScore : F) (s : Selection F) (m : ScoredMemory F × ℕ) : F :=
  0.7 * (m.1.totalScore / maxScore) - (1 - 0.7) * likeness entities s m

/-- The place of the best that is left. If none is above the least float, it is the
first place, whether that is used or not. -/
def bestPlace (value : Selection F → ScoredMemory F × ℕ → F) (s : Selection F) : ℕ :=
  (scan (value s) (·.2) s.unused (lowest, 0)).2

/-- Take so many memories, one by one. -/
def selectMmr (value : Selection F → ScoredMemory F × ℕ → F) : ℕ → Selection F → Selection F
  | 0, s => s
  | n + 1, s => selectMmr value n (s.take (bestPlace value s))

/-- The place of the first memory with the highest score. -/
def bestScored : List (ScoredMemory F) → ℕ
  | [] => 0
  | m :: ms => (ms.zipIdx.foldl (fun best m => if best.1 < m.1.totalScore then (m.1.totalScore, m.2 + 1) else best)
      (m.totalScore, 0)).2

/-- The highest score, if that is above 0. -/
def maxScore (candidates : List (ScoredMemory F)) : F :=
  let highest := candidates.foldl (fun s m => larger s m.totalScore) 0
  if highest ≤ 0 then 1 else highest

/-- How many are selected: one place is kept for a draw, if there are enough. Of no
places at all one cannot be kept: the unsigned difference wraps around. -/
def selectK (n topK : ℕ) : ℕ := if topK + 2 < n then (if topK = 0 then 2 ^ 64 - 1 else topK - 1) else topK

/-- The value of each that is left. -/
def mmrOf (candidates : List (ScoredMemory F)) : Selection F → ScoredMemory F × ℕ → F :=
  mmr (candidates.map (entityIds p)) (maxScore candidates)

/-- The first one that is selected has the highest score. -/
def firstSelected (candidates : List (ScoredMemory F)) : Selection F :=
  Selection.take ⟨candidates, []⟩ (bestScored candidates)

/-- One of those that are left, by a draw: `draw n` is a place among `n`. -/
def explore (draw : ℕ → ℕ) (s : Selection F) : Selection F :=
  match s.unusedIndices[draw s.unusedIndices.length]? with
  | none => s
  | some i => s.take i

/-- What a reranker makes of a query and documents, of which it may answer so many:
places of documents, each with a score. -/
abbrev Reranker (F : Type) := Text → List Text → ℕ → Except Text (List (ℕ × F))

/-- Set a score. There may be no memory in the place. -/
def rescore (candidates : List (ScoredMemory F)) (r : ℕ × F) : List (ScoredMemory F) :=
  candidates.modify r.1 fun m => { m with totalScore := r.2 }

/-- Let a reranker set the scores, with the first memory as the query. -/
def reranked (reranker : Option (Reranker F)) (candidates : List (ScoredMemory F)) : List (ScoredMemory F) :=
  match reranker, candidates with
  | some rerank, m :: m' :: ms =>
    let docs := (m :: m' :: ms).map (·.record.content)
    match rerank m.record.content docs docs.length with
    | .error _ => m :: m' :: ms
    | .ok scores => scores.foldl rescore (m :: m' :: ms)
  | _, _ => candidates

/-- Rank the candidates with the scores they have. -/
def fuse (draw : ℕ → ℕ) (candidates : List (ScoredMemory F)) (topK : ℕ) : List (ScoredMemory F) :=
  if candidates.length ≤ topK then
    rebalance p candidates.length (candidates.insertionSort fun a b => ¬ a.totalScore < b.totalScore) [] 0
  else
    let k := selectK candidates.length topK
    let s := selectMmr (mmrOf p candidates) (k - 1) (firstSelected candidates)
    (if k < topK then explore draw s else s).selected.map (·.1)

def rankAndFuse (reranker : Option (Reranker F)) (draw : ℕ → ℕ) (candidates : List (ScoredMemory F)) (topK : ℕ) :
    List (ScoredMemory F) :=
  fuse p draw (reranked reranker candidates) topK

omit [RecallOps F] in
theorem mem_of_mem_rebalance {m : ScoredMemory F} : ∀ {n : ℕ} {order : List (ScoredMemory F)} {lastKey : Text}
    {streak : ℕ}, m ∈ rebalance p n order lastKey streak → m ∈ order
  | 0, _, _, _, h => by cases h
  | n + 1, order, lastKey, streak, h => by
    rw [rebalance] at h
    dsimp only at h
    split at h
    · cases h
    · rename_i m' hm'
      have hrest : ∀ {i : ℕ} {key : Text} {streak' : ℕ},
          m ∈ m' :: rebalance p n (order.eraseIdx i) key streak' → m ∈ order := by
        intro i key streak' h
        rcases List.mem_cons.mp h with rfl | h
        · exact List.mem_of_getElem? hm'
        · exact List.mem_of_mem_eraseIdx (mem_of_mem_rebalance h)
      split at h
      · exact hrest h
      · exact hrest h

/-! ### What is selected -/

section Taking

omit [RecallOps F]

variable {originals : List (ScoredMemory F)} {s : Selection F}

theorem memoryId_of_left {m c : ScoredMemory F} (h : m = c ∨ m = c.movedFrom) :
    m.record.memoryId = c.record.memoryId := by
  rcases h with rfl | rfl
  · rfl
  · rfl

namespace Selection

/-- In each place is a candidate, or what stays behind of it. -/
structure From (originals : List (ScoredMemory F)) (s : Selection F) : Prop where
  length : s.candidates.length = originals.length
  left : ∀ {i : ℕ} {m : ScoredMemory F}, s.candidates[i]? = some m →
    ∃ c : ScoredMemory F, originals[i]? = some c ∧ (m = c ∨ m = c.movedFrom)
  taken : ∀ m ∈ s.selected, ∃ c : ScoredMemory F, originals[m.2]? = some c ∧ (m.1 = c ∨ m.1 = c.movedFrom)

theorem From.start (originals : List (ScoredMemory F)) : From originals ⟨originals, []⟩ where
  length := rfl
  left := fun h => ⟨_, h, .inl rfl⟩
  taken := fun _ h => by cases h

theorem take_of_getElem? {i : ℕ} {m : ScoredMemory F} (h : s.candidates[i]? = some m) :
    s.take i = ⟨s.candidates.set i m.movedFrom, s.selected ++ [(m, i)]⟩ := by
  rw [take, h]

theorem From.take (h : From originals s) (i : ℕ) : From originals (s.take i) := by
  cases hm : s.candidates[i]? with
  | none =>
    rw [Selection.take, hm]
    exact h
  | some m =>
    rw [take_of_getElem? hm]
    obtain ⟨c, hc, hmc⟩ := h.left hm
    refine ⟨(List.length_set ..).trans h.length, fun {j m'} hj => ?_, fun m' hm' => ?_⟩
    · by_cases hij : i = j
      · subst hij
        have hlt : i < s.candidates.length := (List.getElem?_eq_some_iff.mp hm).1
        rw [List.getElem?_set_self hlt] at hj
        refine ⟨c, hc, .inr ?_⟩
        rcases hmc with rfl | rfl
        · exact (Option.some.inj hj).symm
        · exact (Option.some.inj hj).symm
      · rw [List.getElem?_set_ne hij] at hj
        exact h.left hj
    · rcases List.mem_append.mp hm' with hm' | hm'
      · exact h.taken m' hm'
      · rw [List.mem_singleton.mp hm']
        exact ⟨c, hc, hmc⟩

end Selection

end Taking

theorem from_selectMmr {originals : List (ScoredMemory F)} {value : Selection F → ScoredMemory F × ℕ → F} :
    ∀ (n : ℕ) {s : Selection F}, s.From originals → (selectMmr value n s).From originals
  | 0, _, h => h
  | n + 1, _, h => from_selectMmr n (h.take _)

omit [RecallOps F] in
theorem from_explore {originals : List (ScoredMemory F)} {draw : ℕ → ℕ} {s : Selection F} (h : s.From originals) :
    (explore draw s).From originals := by
  unfold explore
  split
  · exact h
  · exact h.take _

omit [RecallOps F] in
theorem record_rescore (candidates : List (ScoredMemory F)) (r : ℕ × F) :
    (rescore candidates r).map (·.record) = candidates.map (·.record) := by
  refine List.ext_getElem? fun i => ?_
  rw [rescore, List.getElem?_map, List.getElem?_map, List.getElem?_modify]
  cases candidates[i]? with
  | none => rfl
  | some m =>
    by_cases hi : r.1 = i
    · simp [hi]
    · simp [hi]

omit [RecallOps F] in
/-- A reranker changes scores only. -/
theorem record_reranked (reranker : Option (Reranker F)) (candidates : List (ScoredMemory F)) :
    (reranked reranker candidates).map (·.record) = candidates.map (·.record) := by
  have hfold : ∀ (scores : List (ℕ × F)) (ms : List (ScoredMemory F)),
      (scores.foldl rescore ms).map (·.record) = ms.map (·.record) := by
    intro scores
    induction scores with
    | nil => exact fun _ => rfl
    | cons r scores ih => exact fun ms => (ih _).trans (record_rescore ms r)
  unfold reranked
  split
  · dsimp only
    split
    · rfl
    · exact hfold _ _
  · rfl

/-- Only candidates are answered, or what stays behind of them. -/
theorem exists_of_mem_fuse {draw : ℕ → ℕ} {candidates : List (ScoredMemory F)} {topK : ℕ} {m : ScoredMemory F}
    (h : m ∈ fuse p draw candidates topK) : ∃ c ∈ candidates, m = c ∨ m = c.movedFrom := by
  rw [fuse] at h
  split at h
  · exact ⟨m, (List.mem_insertionSort _).mp (mem_of_mem_rebalance p h), .inl rfl⟩
  · extract_lets k s at h
    have hs : s.From candidates := from_selectMmr _ ((Selection.From.start candidates).take _)
    have hfrom : (if k < topK then explore draw s else s).From candidates := by
      split
      · exact from_explore hs
      · exact hs
    obtain ⟨m', hm', rfl⟩ := List.mem_map.mp h
    obtain ⟨c, hc, hmc⟩ := hfrom.taken m' hm'
    exact ⟨c, List.mem_of_getElem? hc, hmc⟩

/-- What is answered has the id of a candidate. -/
theorem memoryId_of_mem_rankAndFuse {reranker : Option (Reranker F)} {draw : ℕ → ℕ}
    {candidates : List (ScoredMemory F)} {topK : ℕ} {m : ScoredMemory F}
    (h : m ∈ rankAndFuse p reranker draw candidates topK) :
    ∃ c ∈ candidates, m.record.memoryId = c.record.memoryId := by
  obtain ⟨c, hc, hmc⟩ := exists_of_mem_fuse p h
  have hrecord : c.record ∈ (reranked reranker candidates).map (·.record) := List.mem_map_of_mem hc
  rw [record_reranked] at hrecord
  obtain ⟨c', hc', he⟩ := List.mem_map.mp hrecord
  exact ⟨c', hc', (memoryId_of_left hmc).trans (congrArg (·.memoryId) he.symm)⟩

end Ranking

/-! ### Aggregates -/

structure StalenessConfig where
  minIdsToBeAggregate : ℕ := 2
  alsoMatchTableFormat : Bool := true

/-- Texts of a list or a table. -/
def listMarks : List Text :=
  ["|---", "\n- ", "\n* ", "\n1.", "以下", "列表", "清单", "汇总", "包括", "包含"].map Utf8.bytes

def looksLikeListLayout (s : Text) : Bool := listMarks.any fun m => occurs m s

section Aggregates

variable {F : Type} (p : EntityPatterns) (cfg : StalenessConfig)

def isAggregate (m : ScoredMemory F) : Bool :=
  (p.extractIds m.record.content).any fun ids =>
    decide (cfg.minIdsToBeAggregate ≤ ids.2.length) ||
      (looksLikeListLayout m.record.content && cfg.alsoMatchTableFormat &&
        decide (cfg.minIdsToBeAggregate ≤ ids.2.length + 1))

/-- A newer memory names an id of one of the aggregate's kinds that is not in the
aggregate. -/
def outdated (ms : List (ScoredMemory F)) (m : ScoredMemory F) : Bool :=
  isAggregate p cfg m && (p.extractIds m.record.content).any fun ids => ms.any fun m' =>
    decide (m.record.createdAt < m'.record.createdAt) &&
      (((p.extractIds m'.record.content).lookup ids.1).getD []).any fun id => !ids.2.contains id

/-- Leave out the aggregates that are outdated, if the filter is on. -/
def applyStaleness (cfg : Option StalenessConfig) (ms : List (ScoredMemory F)) : List (ScoredMemory F) :=
  match cfg with
  | none => ms
  | some cfg =>
    let kept := (ms.filter fun m => !outdated p cfg ms m).map (·.record.memoryId)
    if 1 < ms.length ∧ kept.length < ms.length then ms.filter fun m => kept.contains m.record.memoryId else ms

end Aggregates

end Retrieval
end Amind
