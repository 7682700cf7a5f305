/-
# Conflicts of two memories

A conflict goes through levels, and the first that tells the two apart decides it: a
version wins against the one it was made from, a higher confidence against a lower
one, a newer record against an older, a higher tier of sources against a lower.
A language model may be asked next, and if nobody wins, both stay.

Without the language model it does not matter which of the two comes first
(`resolve_comm`). All levels but the first compare ranks, and the first is not bound by
them: a version that is less trusted than its parent wins against the parent, loses to
a third record, and the parent wins against that. There is no other kind of
cycle (`resolve_contests`).

Key definitions: `ConflictResolver.resolve`, `resolveAll`, `Wins`, `rank`.
Key theorems: `resolve_comm`, `resolve_contests`, `wins_cycle`.
-/
import Mathlib.Data.Prod.Lex
import Amind.Core.MemoryRecord
import Amind.Lib.Ranked

namespace Amind
namespace Conflict

open Amind.Core Relation

inductive ResolutionLevel
  | versionAncestor
  | confidence
  | recency
  | sourceTier
  | llmJudge
  | coexist
  deriving DecidableEq, Repr

structure ConflictResolution where
  winnerId : UInt64
  loserId : UInt64
  level : ResolutionLevel
  reason : Text
  coexist : Bool := false
  deriving DecidableEq

/-- The id of who should win, of two ids with the contents, if it is decided. -/
abbrev LlmJudgeFunc := UInt64 → Text → UInt64 → Text → Option UInt64

structure Stats where
  totalResolved : ℕ := 0
  byVersion : ℕ := 0
  byConfidence : ℕ := 0
  byRecency : ℕ := 0
  bySourceTier : ℕ := 0
  byLlm : ℕ := 0
  byCoexist : ℕ := 0
  deriving DecidableEq, Repr

def Stats.count (s : Stats) : ResolutionLevel → Stats
  | .versionAncestor => { s with totalResolved := s.totalResolved + 1, byVersion := s.byVersion + 1 }
  | .confidence => { s with totalResolved := s.totalResolved + 1, byConfidence := s.byConfidence + 1 }
  | .recency => { s with totalResolved := s.totalResolved + 1, byRecency := s.byRecency + 1 }
  | .sourceTier => { s with totalResolved := s.totalResolved + 1, bySourceTier := s.bySourceTier + 1 }
  | .llmJudge => { s with totalResolved := s.totalResolved + 1, byLlm := s.byLlm + 1 }
  | .coexist => { s with totalResolved := s.totalResolved + 1, byCoexist := s.byCoexist + 1 }

structure ConflictResolver where
  enableLlmJudge : Bool := false
  llmJudge : Option LlmJudgeFunc := none
  stats : Stats := {}

def confidenceRank : Confidence → ℕ
  | .verified => 4
  | .inferred => 3
  | .stale => 2
  | .conflicted => 1

def sourceTierRank : SourceTier → ℕ
  | .behavioral => 3
  | .assertion => 2
  | .inference => 1

def sourceTierToString : SourceTier → Text
  | .assertion => Utf8.bytes "Assertion"
  | .behavioral => Utf8.bytes "Behavioral"
  | .inference => Utf8.bytes "Inference"

section Levels

variable {F : Type} (a b : MemoryRecord F)

/-! ### The levels -/

def tryVersionAncestor : Option ConflictResolution :=
  if b.parentId = a.memoryId then
    some ⟨b.memoryId, a.memoryId, .versionAncestor, Utf8.bytes "B is newer version of A (parent_id chain)", false⟩
  else if a.parentId = b.memoryId then
    some ⟨a.memoryId, b.memoryId, .versionAncestor, Utf8.bytes "A is newer version of B (parent_id chain)", false⟩
  else none

/-- The first wins, or the second. -/
def decided (aWins : Bool) (level : ResolutionLevel) (reason : Text) : ConflictResolution where
  winnerId := if aWins then a.memoryId else b.memoryId
  loserId := if aWins then b.memoryId else a.memoryId
  level := level
  reason := (if aWins then Utf8.bytes "A" else Utf8.bytes "B") ++ reason

/-- The higher rank wins. -/
def compared (rankA rankB : ℕ) (level : ResolutionLevel) (reason : Bool → Text) : Option ConflictResolution :=
  if rankA = rankB then none else some (decided a b (rankB < rankA) level (reason (rankB < rankA)))

def tryConfidence : Option ConflictResolution :=
  compared a b (confidenceRank a.confidenceLevel) (confidenceRank b.confidenceLevel) .confidence fun aWins =>
    Utf8.bytes " has higher confidence (" ++
      (confidenceToString (if aWins then a.confidenceLevel else b.confidenceLevel)).val ++ Utf8.bytes " > " ++
      (confidenceToString (if aWins then b.confidenceLevel else a.confidenceLevel)).val ++ Utf8.bytes ")"

def tryRecency : Option ConflictResolution :=
  compared a b a.createdAt.toNat b.createdAt.toNat .recency fun _ => Utf8.bytes " is more recent"

def trySourceTier : Option ConflictResolution :=
  compared a b (sourceTierRank a.sourceTier) (sourceTierRank b.sourceTier) .sourceTier fun aWins =>
    Utf8.bytes " has higher source tier (" ++
      sourceTierToString (if aWins then a.sourceTier else b.sourceTier) ++ Utf8.bytes " > " ++
      sourceTierToString (if aWins then b.sourceTier else a.sourceTier) ++ Utf8.bytes ")"

def tryLlmJudge (judge : Option LlmJudgeFunc) : Option ConflictResolution :=
  (judge.bind fun judge => judge a.memoryId a.content b.memoryId b.content).map fun winnerId =>
    ⟨winnerId, if winnerId = a.memoryId then b.memoryId else a.memoryId, .llmJudge,
      Utf8.bytes "LLM judge determined winner", false⟩

def coexist : ConflictResolution :=
  ⟨a.memoryId, b.memoryId, .coexist, Utf8.bytes "All strategies tied — both memories coexist", true⟩

/-- The first level that tells the two apart. -/
def firstLevel (x : ConflictResolver) : ConflictResolution :=
  match tryVersionAncestor a b with
  | some r => r
  | none =>
    match tryConfidence a b with
    | some r => r
    | none =>
      match tryRecency a b with
      | some r => r
      | none =>
        match trySourceTier a b with
        | some r => r
        | none =>
          match (if x.enableLlmJudge then tryLlmJudge a b x.llmJudge else none) with
          | some r => r
          | none => coexist a b

end Levels

section Resolving

variable {F : Type}

/-- Resolve a conflict, and count at which level. -/
def ConflictResolver.resolve (x : ConflictResolver) (a b : MemoryRecord F) : ConflictResolver × ConflictResolution :=
  ({ x with stats := x.stats.count (firstLevel a b x).level }, firstLevel a b x)

/-- Resolve conflicts one after the other. -/
def ConflictResolver.resolveAll (x : ConflictResolver) : List (MemoryRecord F × MemoryRecord F) →
    List ConflictResolution
  | [] => []
  | (a, b) :: conflicts => (x.resolve a b).2 :: (x.resolve a b).1.resolveAll conflicts

/-- What is said of a conflict: who wins against whom, unless both stay, and at which level. -/
def ConflictResolution.outcome (r : ConflictResolution) : Option (UInt64 × UInt64) × ResolutionLevel :=
  (if r.coexist then none else some (r.winnerId, r.loserId), r.level)

/-- One of the records wins against another. -/
structure Wins (x : ConflictResolver) (rs : List (MemoryRecord F)) (a b : MemoryRecord F) : Prop where
  left : a ∈ rs
  right : b ∈ rs
  ne : a ≠ b
  wins : ((x.resolve a b).2).outcome.1 = some (a.memoryId, b.memoryId)

/-- One of the records was made from another. -/
structure VersionOf (rs : List (MemoryRecord F)) (child parent : MemoryRecord F) : Prop where
  left : child ∈ rs
  right : parent ∈ rs
  parentId : child.parentId = parent.memoryId

/-- What the levels below the first compare, in their order. -/
def rank (r : MemoryRecord F) : ℕ ×ₗ ℕ ×ₗ ℕ :=
  toLex (confidenceRank r.confidenceLevel, toLex (r.createdAt.toNat, sourceTierRank r.sourceTier))

end Resolving

/-! ### Either way around -/

section Symmetry

variable {F : Type} {x : ConflictResolver} {a b : MemoryRecord F} {m n : ℕ} {level : ResolutionLevel}
  {reason reason' : Bool → Text} {r : ConflictResolution}

theorem compared_eq_none : compared a b m n level reason = none ↔ m = n := by
  unfold compared
  split
  · rename_i h
    exact iff_of_true rfl h
  · rename_i h
    exact iff_of_false (by simp) h

/-- Who wins of two ranks. -/
theorem outcome_compared (h : compared a b m n level reason = some r) :
    (n < m ∧ r.outcome = (some (a.memoryId, b.memoryId), level)) ∨
      (m < n ∧ r.outcome = (some (b.memoryId, a.memoryId), level)) := by
  unfold compared at h
  split at h
  · cases h
  · rename_i hne
    obtain rfl := Option.some.inj h
    rcases Nat.lt_or_gt_of_ne hne with hlt | hlt
    · exact .inr ⟨hlt, by simp [decided, ConflictResolution.outcome, Nat.lt_asymm hlt]⟩
    · exact .inl ⟨hlt, by simp [decided, ConflictResolution.outcome, hlt]⟩

/-- A level says the same either way around. -/
theorem compared_comm :
    (compared a b m n level reason).map (·.outcome) = (compared b a n m level reason').map (·.outcome) := by
  cases h : compared a b m n level reason with
  | none =>
    have hsame : compared b a n m level reason' = none := compared_eq_none.mpr (compared_eq_none.mp h).symm
    rw [hsame]
  | some r =>
    cases h' : compared b a n m level reason' with
    | none => exact absurd (compared_eq_none.mp h').symm fun he => by simp [compared_eq_none.mpr he] at h
    | some r' =>
      have hr := outcome_compared h
      have hr' := outcome_compared h'
      rw [Option.map_some, Option.map_some]
      grind

/-- The levels below the first, without the language model. -/
def laterLevels (a b : MemoryRecord F) : Option ConflictResolution :=
  (tryConfidence a b).or ((tryRecency a b).or (trySourceTier a b))

theorem laterLevels_comm : (laterLevels a b).map (·.outcome) = (laterLevels b a).map (·.outcome) := by
  have hconf : (tryConfidence a b).map (·.outcome) = (tryConfidence b a).map (·.outcome) := compared_comm
  have hrec : (tryRecency a b).map (·.outcome) = (tryRecency b a).map (·.outcome) := compared_comm
  have htier : (trySourceTier a b).map (·.outcome) = (trySourceTier b a).map (·.outcome) := compared_comm
  simp only [laterLevels, Option.map_or, hconf, hrec, htier]

/-- A resolution without the language model. -/
theorem firstLevel_eq (hx : x.enableLlmJudge = false) :
    firstLevel a b x = ((tryVersionAncestor a b).or (laterLevels a b)).getD (coexist a b) := by
  unfold firstLevel laterLevels
  rw [hx]
  cases tryVersionAncestor a b with
  | some r => rfl
  | none =>
    cases tryConfidence a b with
    | some r => rfl
    | none =>
      cases tryRecency a b with
      | some r => rfl
      | none => cases trySourceTier a b <;> rfl

theorem outcome_coexist : (coexist a b).outcome = (none, .coexist) := rfl

theorem outcome_firstLevel (hx : x.enableLlmJudge = false) :
    (firstLevel a b x).outcome = (((tryVersionAncestor a b).map (·.outcome)).or
      ((laterLevels a b).map (·.outcome))).getD (none, .coexist) := by
  rw [firstLevel_eq hx, ← Option.map_or, ← outcome_coexist (a := a) (b := b), Option.getD_map]

/-- The first level says the same either way around, if neither was made from the other and
that from it. -/
theorem tryVersionAncestor_comm (h : ¬ (a.parentId = b.memoryId ∧ b.parentId = a.memoryId)) :
    (tryVersionAncestor a b).map (·.outcome) = (tryVersionAncestor b a).map (·.outcome) := by
  unfold tryVersionAncestor
  by_cases hb : b.parentId = a.memoryId
  · have ha : ¬ a.parentId = b.memoryId := fun ha => h ⟨ha, hb⟩
    rw [if_pos hb, if_neg ha, if_pos hb]
    rfl
  · rw [if_neg hb, if_neg hb]
    split <;> rfl

/-- **Either way around** a conflict is resolved in the same way. -/
theorem resolve_comm (hx : x.enableLlmJudge = false) (h : ¬ (a.parentId = b.memoryId ∧ b.parentId = a.memoryId)) :
    (x.resolve a b).2.outcome = (x.resolve b a).2.outcome := by
  show (firstLevel a b x).outcome = (firstLevel b a x).outcome
  rw [outcome_firstLevel hx, outcome_firstLevel hx, tryVersionAncestor_comm h, laterLevels_comm]

end Symmetry

/-! ### Who wins -/

section Contests

variable {F : Type} {x : ConflictResolver} {rs : List (MemoryRecord F)} {a b : MemoryRecord F}
  {r : ConflictResolution} {w l : UInt64}

/-- The later levels give the one of higher rank. -/
theorem outcome_laterLevels (h : laterLevels a b = some r) :
    (rank b < rank a ∧ r.outcome.1 = some (a.memoryId, b.memoryId)) ∨
      (rank a < rank b ∧ r.outcome.1 = some (b.memoryId, a.memoryId)) := by
  unfold laterLevels at h
  simp only [rank, Prod.Lex.toLex_lt_toLex]
  cases hconf : tryConfidence a b with
  | some c =>
    obtain rfl : c = r := by simpa [hconf] using h
    rcases outcome_compared hconf with ⟨hlt, ho⟩ | ⟨hlt, ho⟩
    · exact .inl ⟨.inl hlt, congrArg Prod.fst ho⟩
    · exact .inr ⟨.inl hlt, congrArg Prod.fst ho⟩
  | none =>
    have heq := compared_eq_none.mp hconf
    cases hrec : tryRecency a b with
    | some c =>
      obtain rfl : c = r := by simpa [hconf, hrec] using h
      rcases outcome_compared hrec with ⟨hlt, ho⟩ | ⟨hlt, ho⟩
      · exact .inl ⟨.inr ⟨heq.symm, .inl hlt⟩, congrArg Prod.fst ho⟩
      · exact .inr ⟨.inr ⟨heq, .inl hlt⟩, congrArg Prod.fst ho⟩
    | none =>
      have heq' := compared_eq_none.mp hrec
      have htier : trySourceTier a b = some r := by simpa [hconf, hrec] using h
      rcases outcome_compared htier with ⟨hlt, ho⟩ | ⟨hlt, ho⟩
      · exact .inl ⟨.inr ⟨heq.symm, .inr ⟨heq'.symm, hlt⟩⟩, congrArg Prod.fst ho⟩
      · exact .inr ⟨.inr ⟨heq, .inr ⟨heq', hlt⟩⟩, congrArg Prod.fst ho⟩

/-- Who is said to win against whom is a version and its parent, or of higher rank. -/
theorem outcome_cases (hx : x.enableLlmJudge = false) (h : (x.resolve a b).2.outcome.1 = some (w, l)) :
    (w = a.memoryId ∧ l = b.memoryId ∧ (a.parentId = b.memoryId ∨ rank b < rank a)) ∨
      (w = b.memoryId ∧ l = a.memoryId ∧ (b.parentId = a.memoryId ∨ rank a < rank b)) := by
  replace h : (firstLevel a b x).outcome.1 = some (w, l) := h
  rw [firstLevel_eq hx] at h
  cases hv : tryVersionAncestor a b with
  | some v =>
    rw [hv] at h
    unfold tryVersionAncestor at hv
    split at hv
    · rename_i hb
      obtain rfl := Option.some.inj hv
      obtain ⟨rfl, rfl⟩ := Prod.mk.inj (Option.some.inj h)
      exact .inr ⟨rfl, rfl, .inl hb⟩
    · split at hv
      · rename_i ha
        obtain rfl := Option.some.inj hv
        obtain ⟨rfl, rfl⟩ := Prod.mk.inj (Option.some.inj h)
        exact .inl ⟨rfl, rfl, .inl ha⟩
      · cases hv
  | none =>
    rw [hv, Option.none_or] at h
    cases hl : laterLevels a b with
    | none =>
      rw [hl] at h
      cases h
    | some r =>
      rw [hl, Option.getD_some] at h
      rcases outcome_laterLevels hl with ⟨hlt, ho⟩ | ⟨hlt, ho⟩
      · obtain ⟨rfl, rfl⟩ := Prod.mk.inj (Option.some.inj (h.symm.trans ho))
        exact .inl ⟨rfl, rfl, .inr hlt⟩
      · obtain ⟨rfl, rfl⟩ := Prod.mk.inj (Option.some.inj (h.symm.trans ho))
        exact .inr ⟨rfl, rfl, .inr hlt⟩

/-- Records are told apart by their ids. -/
theorem eq_of_memoryId (hids : (rs.map (·.memoryId)).Nodup) (ha : a ∈ rs) (hb : b ∈ rs)
    (h : a.memoryId = b.memoryId) : a = b := List.inj_on_of_nodup_map hids ha hb h

/-- **A win** is that of a version against its parent, or goes down in rank. -/
theorem Wins.version_or_rank (hx : x.enableLlmJudge = false) (hids : (rs.map (·.memoryId)).Nodup)
    (h : Wins x rs a b) : VersionOf rs a b ∨ rank b < rank a := by
  rcases outcome_cases hx h.wins with ⟨-, -, hwin⟩ | ⟨hab, -, -⟩
  · exact hwin.imp_left fun hp => ⟨h.left, h.right, hp⟩
  · exact absurd (eq_of_memoryId hids h.left h.right hab) h.ne

theorem resolveAll_eq (x : ConflictResolver) : ∀ {x' : ConflictResolver}
    (conflicts : List (MemoryRecord F × MemoryRecord F)),
    x'.enableLlmJudge = x.enableLlmJudge → x'.llmJudge = x.llmJudge →
    x'.resolveAll conflicts = conflicts.map fun c => (x.resolve c.1 c.2).2
  | _, [], _, _ => rfl
  | x', (a, b) :: conflicts, hx, hjudge => by
    have hfirst : (x'.resolve a b).2 = (x.resolve a b).2 := by
      show firstLevel a b x' = firstLevel a b x
      simp only [firstLevel, hx, hjudge]
    have hrest : (x'.resolve a b).1.resolveAll conflicts = _ := resolveAll_eq x conflicts hx hjudge
    rw [ConflictResolver.resolveAll, hrest, hfirst]
    rfl

/-- No two records of the set were made from each other. -/
theorem not_both (hparents : ∀ a, ¬ TransGen (VersionOf rs) a a) (ha : a ∈ rs) (hb : b ∈ rs) :
    ¬ (a.parentId = b.memoryId ∧ b.parentId = a.memoryId) := fun h =>
  hparents a (.head ⟨ha, hb, h.1⟩ (.single ⟨hb, ha, h.2⟩))

/-- Whoever loses a conflict of two of the set is won against. -/
theorem exists_wins (hx : x.enableLlmJudge = false) (hparents : ∀ a, ¬ TransGen (VersionOf rs) a a) (ha : a ∈ rs)
    (hb : b ∈ rs) (hne : a ≠ b) (h : (x.resolve a b).2.outcome.1 = some (w, l)) :
    ∃ c d, Wins x rs c d ∧ c.memoryId = w ∧ d.memoryId = l := by
  rcases outcome_cases hx h with ⟨rfl, rfl, -⟩ | ⟨rfl, rfl, -⟩
  · exact ⟨a, b, ⟨ha, hb, hne, h⟩, rfl, rfl⟩
  · rw [resolve_comm hx (not_both hparents ha hb)] at h
    exact ⟨b, a, ⟨hb, ha, hne.symm, h⟩, rfl, rfl⟩

/-- **Contests.** Among records with different ids that were not made from each other in a
circle, any two are resolved in the same way either way around. A cycle of wins
goes through a version that ranks below its parent. If there is no such version, somebody
loses none of any conflicts that are resolved in any order. -/
theorem resolve_contests (hx : x.enableLlmJudge = false) (hids : (rs.map (·.memoryId)).Nodup)
    (hparents : ∀ a, ¬ TransGen (VersionOf rs) a a) :
    (∀ a ∈ rs, ∀ b ∈ rs, (x.resolve a b).2.outcome = (x.resolve b a).2.outcome) ∧
      (∀ a, TransGen (Wins x rs) a a → ∃ child parent, ReflTransGen (Wins x rs) a child ∧ Wins x rs child parent ∧
        ReflTransGen (Wins x rs) parent a ∧ VersionOf rs child parent ∧ rank child < rank parent) ∧
      (rs ≠ [] → (∀ child parent, VersionOf rs child parent → rank parent ≤ rank child) →
        (∀ a, ¬ TransGen (Wins x rs) a a) ∧
        ∃ a ∈ rs, ∀ conflicts : List (MemoryRecord F × MemoryRecord F),
          (∀ c ∈ conflicts, c.1 ∈ rs ∧ c.2 ∈ rs ∧ c.1 ≠ c.2) →
          ∀ r ∈ x.resolveAll conflicts, ∀ w l, r.outcome.1 = some (w, l) → l ≠ a.memoryId) := by
  have hwins : ∀ a b, Wins x rs a b → VersionOf rs a b ∨ rank b < rank a := fun _ _ h => h.version_or_rank hx hids
  have hcycle : ∀ a, TransGen (Wins x rs) a a → ∃ child parent, ReflTransGen (Wins x rs) a child ∧
      Wins x rs child parent ∧ ReflTransGen (Wins x rs) parent a ∧ VersionOf rs child parent ∧
      rank child < rank parent := by
    intro a ha
    obtain ⟨c, p, hac, hcp, hrank, hpa⟩ := Ranked.inverted_of_cycle hwins hparents ha
    exact ⟨c, p, hac, hcp, hpa, (hwins c p hcp).resolve_right fun hlt => hrank hlt.le, not_le.mp hrank⟩
  refine ⟨fun a ha b hb => resolve_comm hx (not_both hparents ha hb), hcycle, fun hne hmono => ?_⟩
  have hnone : ∀ a, ¬ TransGen (Wins x rs) a a := by
    intro a ha
    obtain ⟨c, p, -, -, -, hversion, hrank⟩ := hcycle a ha
    exact not_lt.mpr (hmono c p hversion) hrank
  obtain ⟨a, ha, hfree⟩ := Ranked.exists_undefeated hnone hne
  refine ⟨hnone, a, ha, fun conflicts hconflicts r hr w l ho hl => ?_⟩
  rw [resolveAll_eq x conflicts rfl rfl] at hr
  obtain ⟨c, hc, rfl⟩ := List.mem_map.mp hr
  obtain ⟨h1, h2, hdiff⟩ := hconflicts c hc
  obtain ⟨p, q, hpq, -, rfl⟩ := exists_wins hx hparents h1 h2 hdiff ho
  exact hfree p hpq.left (eq_of_memoryId hids hpq.right ha hl ▸ hpq)

end Contests

/-! ### Few records -/

section Few

variable {F : Type} {rs : List (MemoryRecord F)} {child parent : MemoryRecord F}

/-- One version makes no circle. -/
theorem not_cyclic (h : ∀ a b, VersionOf rs a b → a = child ∧ b = parent) (hne : child ≠ parent) (a : MemoryRecord F) :
    ¬ TransGen (VersionOf rs) a a := by
  intro hcycle
  obtain ⟨b, hab, -⟩ := TransGen.head'_iff.mp hcycle
  obtain ⟨c, -, hca⟩ := TransGen.tail'_iff.mp hcycle
  exact hne ((h a b hab).1.symm.trans (h c a hca).2)

end Few

def verifiedParent : MemoryRecord ℤ := { MemoryRecord.zero with memoryId := 1, confidenceLevel := .verified }

def verifiedVersion : MemoryRecord ℤ :=
  { MemoryRecord.zero with memoryId := 2, parentId := 1, confidenceLevel := .verified }

def staleVersion : MemoryRecord ℤ :=
  { MemoryRecord.zero with memoryId := 2, parentId := 1, confidenceLevel := .stale }

def inferredOther : MemoryRecord ℤ := { MemoryRecord.zero with memoryId := 3 }

def circle : List (MemoryRecord ℤ) := [verifiedParent, staleVersion, inferredOther]

theorem versionOf_circle (a b : MemoryRecord ℤ) (h : VersionOf circle a b) : a = staleVersion ∧ b = verifiedParent := by
  obtain ⟨ha, hb, hp⟩ := h
  simp only [circle, List.mem_cons, List.not_mem_nil, or_false] at ha hb
  rcases ha with rfl | rfl | rfl <;> rcases hb with rfl | rfl | rfl <;> revert hp <;> decide

theorem versionOf_two (a b : MemoryRecord ℤ) (h : VersionOf [verifiedParent, verifiedVersion] a b) :
    a = verifiedVersion ∧ b = verifiedParent := by
  obtain ⟨ha, hb, hp⟩ := h
  simp only [List.mem_cons, List.not_mem_nil, or_false] at ha hb
  rcases ha with rfl | rfl <;> rcases hb with rfl | rfl <;> revert hp <;> decide

/-- A version that is trusted as much as its parent. -/
theorem contests_two : ∃ a ∈ [verifiedParent, verifiedVersion], ∀ r ∈ ({} : ConflictResolver).resolveAll
    [(verifiedParent, verifiedVersion)], ∀ w l, r.outcome.1 = some (w, l) → l ≠ a.memoryId := by
  obtain ⟨-, -, h⟩ := resolve_contests (x := {}) rfl (by decide) (not_cyclic versionOf_two (by decide))
  obtain ⟨-, a, ha, hundefeated⟩ := h (by decide) fun c p hcp => by
    obtain ⟨rfl, rfl⟩ := versionOf_two c p hcp
    exact le_rfl
  exact ⟨a, ha, hundefeated _ (by decide)⟩

/-- **A cycle of wins.** A version wins against the parent, which is more trusted than a third
record, which is more trusted than the version. -/
theorem wins_cycle : (circle.map (·.memoryId)).Nodup ∧ (∀ a, ¬ TransGen (VersionOf circle) a a) ∧
    TransGen (Wins {} circle) staleVersion staleVersion ∧ ∀ a ∈ circle, ∃ b, Wins {} circle b a := by
  have h1 : Wins {} circle staleVersion verifiedParent := ⟨by decide, by decide, by decide, by decide⟩
  have h2 : Wins {} circle verifiedParent inferredOther := ⟨by decide, by decide, by decide, by decide⟩
  have h3 : Wins {} circle inferredOther staleVersion := ⟨by decide, by decide, by decide, by decide⟩
  refine ⟨by decide, not_cyclic versionOf_circle (by decide), .head h1 (.head h2 (.single h3)), fun a ha => ?_⟩
  simp only [circle, List.mem_cons, List.not_mem_nil, or_false] at ha
  rcases ha with rfl | rfl | rfl
  · exact ⟨_, h1⟩
  · exact ⟨_, h3⟩
  · exact ⟨_, h2⟩

end Conflict
end Amind
