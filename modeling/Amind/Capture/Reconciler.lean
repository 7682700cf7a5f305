/-
# The decision about a new fact

The reconciler asks a language model what a new fact does to the memories it is
like, and reads the answer, which may be any text. What it reads is filled into a
decision one field after the other; something that throws ends the reading, and
leaves the decision as far as it was filled in. Two passes mend decisions: one at the end of
the reading, between operations and their targets, and one of targets that
were not asked about.

The last field read is the rationale. If it is not a text, the operation and the
targets stay as they are, and the first pass is left out (`sound_iff`).

Not covered: the log of decisions, and the text of the system prompt.

Key definitions: `parseResponse`, `decide`, `Sound`, `Mended`.
Key theorems: `decide_asked`, `sound_iff`.
-/
import Amind.Auth.Keys
import Amind.Capture.Replace
import Amind.Memory.Import
import Amind.Observability.MemoryEvent

namespace Amind
namespace Capture

open Amind.Core

def parseReconcileOp (s : Text) : ReconcileOp :=
  if s = Utf8.bytes "REPLACE" then .REPLACE
  else if s = Utf8.bytes "RETRACT" then .RETRACT
  else if s = Utf8.bytes "REINFORCE" then .REINFORCE
  else if s = Utf8.bytes "NOOP" then .NOOP
  else .ADD

structure ReconcileDecision where
  op : ReconcileOp := .ADD
  targetId : UInt64 := 0
  targetIds : List UInt64 := []
  rationale : Text := []
  fromFallback : Bool := false
  deriving DecidableEq, Repr

/-- What a call of the language model comes to. -/
inductive LLMAnswer
  | response (s : Text)
  | error (message : Text)
  | throws
  deriving DecidableEq, Repr

namespace Reconciler

structure Config (F : Type) where
  similarityFloor : F
  maxNeighbours : ℕ := 15
  maxContentChars : ℕ := 280

structure Stats where
  totalCalls : ℕ := 0
  llmInvocations : ℕ := 0
  llmFailures : ℕ := 0
  opAdd : ℕ := 0
  opReplace : ℕ := 0
  opRetract : ℕ := 0
  opReinforce : ℕ := 0
  opNoop : ℕ := 0
  deriving DecidableEq, Repr

def Stats.tally (s : Stats) : ReconcileOp → Stats
  | .ADD => { s with opAdd := s.opAdd + 1 }
  | .REPLACE => { s with opReplace := s.opReplace + 1 }
  | .RETRACT => { s with opRetract := s.opRetract + 1 }
  | .REINFORCE => { s with opReinforce := s.opReinforce + 1 }
  | .NOOP => { s with opNoop := s.opNoop + 1 }

/-! ### Reading an answer -/

/-- From the first opening brace to the last closing one, if that is not before it. -/
def trimmed (s : Text) : Option Text :=
  match s.findIdx? (· = 0x7B), s.reverse.findIdx? (· = 0x7D) with
  | some first, some fromEnd =>
    let last := s.length - 1 - fromEnd
    if last < first then none else some ((s.drop first).take (last - first + 1))
  | _, _ => none

section Reading

variable {D : Type} (fl : Json.Library D)

def readOp (j : Json D) : Option ReconcileOp :=
  (Memory.member j "op" Memory.getText (Utf8.bytes "ADD")).map parseReconcileOp

/-- An id that is a number, which wraps around, or a text. 0 if it is neither. -/
def readId : Json D → UInt64
  | .int n => UInt64.ofInt n
  | .str s => (Auth.stoull s.val).getD 0
  | _ => 0

/-- The first target and all of them, from an array or from a single id. -/
def readTargets (j : Json D) : UInt64 × List UInt64 :=
  match j.find (Utf8.lit "target_ids") with
  | some (.arr js) =>
    let ids := (js.map readId).filter (· ≠ 0)
    (ids.headD 0, ids)
  | _ =>
    match j.find (Utf8.lit "target_id") with
    | some t => (readId t, if readId t ≠ 0 then [readId t] else [])
    | none => (0, [])

def readRationale (j : Json D) : Option Text := Memory.member j "rationale" Memory.getText []

/-- The first pass: an `ADD` has no targets, and what has none is an `ADD`. -/
def normalised (d : ReconcileDecision) : ReconcileDecision :=
  if d.op = .ADD ∧ d.targetIds ≠ [] then { d with targetIds := [], targetId := 0 }
  else if d.op ≠ .ADD ∧ d.targetIds = [] then { d with op := .ADD, targetId := 0 }
  else d

/-- Fill in a decision from an object. What throws leaves it as it is then. -/
def fill (j : Json D) : ReconcileDecision :=
  match readOp j with
  | none => {}
  | some op =>
    let out : ReconcileDecision := { op, targetId := (readTargets j).1, targetIds := (readTargets j).2 }
    match readRationale j with
    | none => out
    | some rationale => normalised { out with rationale }

def parseResponse (s : Text) : ReconcileDecision :=
  match (trimmed s).bind fl.parse with
  | none => {}
  | some j => fill j

/-- The answer is read to the end. -/
def Completes (s : Text) : Prop :=
  ∃ j, (trimmed s).bind fl.parse = some j ∧ (readOp j).isSome ∧ (readRationale j).isSome

end Reading

/-! ### Deciding -/

section Deciding

variable {F D : Type}

/-- The neighbours that are not below the floor, until there are enough. -/
def strongFrom [Floats F] (cfg : Config F) : List (MemoryRecord F × F) → List (MemoryRecord F × F) →
    List (MemoryRecord F × F)
  | [], strong => strong
  | nb :: neighbours, strong =>
    if nb.2 < cfg.similarityFloor then strongFrom cfg neighbours strong
    else if cfg.maxNeighbours ≤ (strong ++ [nb]).length then strong ++ [nb]
    else strongFrom cfg neighbours (strong ++ [nb])

def buildPrompt [FloatOps F] (candidate : Text) (neighbours : List (MemoryRecord F × F)) (maxContentChars : ℕ) : Text :=
  Utf8.bytes "Existing facts about this user:\n" ++
  (if neighbours = [] then Utf8.bytes "  (none)\n"
    else neighbours.flatMap fun nb =>
      Utf8.bytes "  - id=" ++ Utf8.bytes (toString nb.1.memoryId.toNat) ++
      Utf8.bytes " created_at=" ++ Utf8.bytes (toString nb.1.createdAt.toNat) ++
      Utf8.bytes " sim=" ++ (toText nb.2).take 4 ++
      Utf8.bytes " content=\"" ++ Observability.truncateUtf8 nb.1.content maxContentChars ++ Utf8.bytes "\"\n") ++
  Utf8.bytes "\nNew fact (just extracted from latest conversation):\n" ++
  Utf8.bytes "  \"" ++ Observability.truncateUtf8 candidate maxContentChars ++ Utf8.bytes "\"\n" ++
  Utf8.bytes "\nDecide the op as instructed and respond with the JSON object only."

/-- The second pass: targets that were not asked about are dropped, and with the last of
them the operation. -/
def checked (strong : List (MemoryRecord F × F)) (d : ReconcileDecision) : ReconcileDecision :=
  if d.targetIds ≠ [] then
    let filtered := d.targetIds.filter (· ∈ strong.map (·.1.memoryId))
    if filtered = [] ∧ d.op ≠ .ADD then
      { op := .ADD, targetId := 0, targetIds := filtered, fromFallback := true,
        rationale := Utf8.bytes "LLM target_ids not in neighbours; " ++ d.rationale }
    else { d with targetIds := filtered, targetId := filtered.headD 0 }
  else d

/-- Decide about a candidate. Nothing is decided if the language model throws. -/
def decide [FloatOps F] (fl : Json.Library D) (cfg : Config F) (llm : Option (Text → LLMAnswer)) (stats : Stats)
    (candidate : Text) (neighbours : List (MemoryRecord F × F)) : Stats × Option ReconcileDecision :=
  let stats := { stats with totalCalls := stats.totalCalls + 1 }
  let strong := strongFrom cfg neighbours []
  match strong, llm with
  | [], _ => (stats.tally .ADD, some { rationale := Utf8.bytes "no strong neighbours" })
  | _, none => (stats.tally .ADD, some { rationale := Utf8.bytes "no strong neighbours" })
  | _, some generateJson =>
    let stats := { stats with llmInvocations := stats.llmInvocations + 1 }
    match generateJson (buildPrompt candidate strong cfg.maxContentChars) with
    | .throws => (stats, none)
    | .error message =>
      ({ stats with llmFailures := stats.llmFailures + 1 }.tally .ADD,
        some { rationale := Utf8.bytes "LLM failure: " ++ message, fromFallback := true })
    | .response s =>
      let decision := checked strong (parseResponse fl s)
      (stats.tally decision.op, some decision)

/-- Either nothing is done to others, or something to neighbours that are not below
the floor. A similarity that is no number counts as not below it, as in the source. -/
def Sound [Floats F] (cfg : Config F) (neighbours : List (MemoryRecord F × F)) (d : ReconcileDecision) : Prop :=
  (d.op = .ADD ∧ d.targetIds = [] ∧ d.targetId = 0) ∨
  (d.op ≠ .ADD ∧ d.targetIds ≠ [] ∧ d.targetIds.head? = some d.targetId ∧
    ∀ id ∈ d.targetIds, ∃ nb ∈ neighbours, nb.1.memoryId = id ∧ ¬ nb.2 < cfg.similarityFloor)

/-- The neighbours that are asked about. -/
def asked [Floats F] (cfg : Config F) (neighbours : List (MemoryRecord F × F)) : List (MemoryRecord F × F) :=
  (neighbours.filter fun nb => ¬ nb.2 < cfg.similarityFloor).take (max 1 cfg.maxNeighbours)

/-- None of the targets is among those asked about. -/
def Foreign (strong : List (MemoryRecord F × F)) (ids : List UInt64) : Prop :=
  ∀ id ∈ ids, id ∉ strong.map (·.1.memoryId)

/-- If its rationale is no text, the answer names nobody who was asked about, and with
another operation than `ADD` it names somebody. -/
def Mended (fl : Json.Library D) (strong : List (MemoryRecord F × F)) (s : Text) : Prop :=
  ∀ j, (trimmed s).bind fl.parse = some j → ∀ op, readOp j = some op → readRationale j = none →
    Foreign strong (readTargets j).2 ∧ (op = .ADD ∨ (readTargets j).2 ≠ [])

/-- What the language model answers, if it is asked. -/
def answer [FloatOps F] (cfg : Config F) (llm : Option (Text → LLMAnswer)) (candidate : Text)
    (neighbours : List (MemoryRecord F × F)) : Option LLMAnswer :=
  if asked cfg neighbours = [] then none
  else llm.map fun generateJson => generateJson (buildPrompt candidate (asked cfg neighbours) cfg.maxContentChars)

/-! ### The passes -/

variable {strong neighbours : List (MemoryRecord F × F)} {d : ReconcileDecision}

theorem headed_readTargets (j : Json D) : (readTargets j).1 = (readTargets j).2.headD 0 := by
  unfold readTargets
  split
  · rfl
  · split
    · split
      · rfl
      · rename_i hzero
        exact not_not.mp hzero
    · rfl

theorem normalised_targets (d : ReconcileDecision) : (normalised d).op = .ADD ↔ (normalised d).targetIds = [] := by
  unfold normalised
  split
  · rename_i h
    exact iff_of_true h.1 rfl
  · split
    · rename_i h
      exact iff_of_true rfl h.2
    · grind

theorem headed_normalised (h : d.targetId = d.targetIds.headD 0) :
    (normalised d).targetId = (normalised d).targetIds.headD 0 := by
  unfold normalised
  split
  · rfl
  · split
    · rename_i hd
      rw [hd.2]
      rfl
    · exact h

theorem foreign_iff {ids : List UInt64} : Foreign strong ids ↔ ids.filter (· ∈ strong.map (·.1.memoryId)) = [] := by
  rw [List.filter_eq_nil_iff]
  simp only [Foreign, decide_eq_true_eq]

/-- What becomes of the operation in the second pass. -/
theorem checked_op : (checked strong d).op = .ADD ↔ d.op = .ADD ∨ (d.targetIds ≠ [] ∧ Foreign strong d.targetIds) := by
  rw [foreign_iff]
  unfold checked
  split
  · rename_i hids
    dsimp only
    split
    · rename_i h
      exact iff_of_true rfl (.inr ⟨hids, h.1⟩)
    · rename_i h
      grind
  · rename_i hids
    grind

theorem sound_of_filtered [Floats F] {cfg : Config F}
    (hstrong : ∀ nb ∈ strong, nb ∈ neighbours ∧ ¬ nb.2 < cfg.similarityFloor) {ids : List UInt64}
    (h : ids.filter (· ∈ strong.map (·.1.memoryId)) ≠ []) (hop : d.op ≠ .ADD) :
    Sound cfg neighbours { d with
      targetIds := ids.filter (· ∈ strong.map (·.1.memoryId))
      targetId := (ids.filter (· ∈ strong.map (·.1.memoryId))).headD 0 } := by
  refine .inr ⟨hop, h, ?_, fun id hid => ?_⟩
  · cases hf : ids.filter (· ∈ strong.map (·.1.memoryId)) with
    | nil => exact absurd hf h
    | cons x xs => rfl
  · obtain ⟨-, hmem⟩ := List.mem_filter.mp hid
    obtain ⟨nb, hnb, rfl⟩ := List.mem_map.mp (of_decide_eq_true hmem)
    exact ⟨nb, (hstrong nb hnb).1, rfl, (hstrong nb hnb).2⟩

/-- **What the second pass mends.** Not an operation without targets, and not an `ADD`
with targets that were asked about. -/
theorem sound_checked_iff [Floats F] {cfg : Config F}
    (hstrong : ∀ nb ∈ strong, nb ∈ neighbours ∧ ¬ nb.2 < cfg.similarityFloor) (hd : d.targetId = d.targetIds.headD 0) :
    Sound cfg neighbours (checked strong d) ↔
      (d.targetIds = [] → d.op = .ADD) ∧ (d.op = .ADD → Foreign strong d.targetIds) := by
  rw [foreign_iff]
  unfold checked
  split
  · rename_i hids
    dsimp only
    split
    · rename_i h
      exact iff_of_true (.inl ⟨rfl, h.1, rfl⟩) ⟨fun he => absurd he hids, fun ha => absurd ha h.2⟩
    · rename_i h
      by_cases hf : d.targetIds.filter (· ∈ strong.map (·.1.memoryId)) = []
      · have hop : d.op = .ADD := by
          by_contra hop
          exact h ⟨hf, hop⟩
        exact iff_of_true (.inl ⟨hop, hf, by rw [hf]; rfl⟩) ⟨fun _ => hop, fun _ => hf⟩
      · by_cases hop : d.op = .ADD
        · refine iff_of_false ?_ fun hr => hf (hr.2 hop)
          rintro (⟨-, he, -⟩ | ⟨hne, -⟩)
          · exact hf he
          · exact hne hop
        · exact iff_of_true (sound_of_filtered hstrong hf hop) ⟨fun he => absurd he hids, fun ha => absurd ha hop⟩
  · rename_i hids
    have he : d.targetIds = [] := not_not.mp hids
    rw [he] at hd ⊢
    constructor
    · rintro (⟨hop, -⟩ | ⟨-, hne, -⟩)
      · exact ⟨fun _ => hop, fun _ => rfl⟩
      · exact absurd he hne
    · intro h
      exact .inl ⟨h.1 rfl, he, hd⟩

/-! ### The decision -/

/-- The loop takes the first neighbours that are not below the floor. -/
theorem strongFrom_eq [Floats F] {cfg : Config F} : ∀ {neighbours strong : List (MemoryRecord F × F)},
    strong.length < max 1 cfg.maxNeighbours →
    strongFrom cfg neighbours strong = strong ++
      (neighbours.filter fun nb => ¬ nb.2 < cfg.similarityFloor).take (max 1 cfg.maxNeighbours - strong.length)
  | [], strong, _ => by simp [strongFrom]
  | nb :: neighbours, strong, h => by
    rw [strongFrom]
    by_cases hbelow : nb.2 < cfg.similarityFloor
    · rw [if_pos hbelow, strongFrom_eq h, List.filter_cons_of_neg (by simpa using hbelow)]
    · have hlen : (strong ++ [nb]).length = strong.length + 1 := by simp
      obtain ⟨room, hroom⟩ : ∃ room, max 1 cfg.maxNeighbours - strong.length = room + 1 :=
        ⟨max 1 cfg.maxNeighbours - strong.length - 1, by omega⟩
      rw [if_neg hbelow, List.filter_cons_of_pos (by simpa using hbelow), hroom, List.take_succ_cons]
      split
      · have hlast : room = 0 := by omega
        rw [hlast, List.take_zero]
      · rw [strongFrom_eq (by omega), hlen, List.append_assoc, List.singleton_append]
        congr 3
        omega

theorem strongFrom_nil [Floats F] (cfg : Config F) (neighbours : List (MemoryRecord F × F)) :
    strongFrom cfg neighbours [] = asked cfg neighbours := by
  rw [strongFrom_eq (by simp)]
  rfl

theorem mem_asked [Floats F] {cfg : Config F} {nb : MemoryRecord F × F} (h : nb ∈ asked cfg neighbours) :
    nb ∈ neighbours ∧ ¬ nb.2 < cfg.similarityFloor := by
  obtain ⟨hmem, hfloor⟩ := List.mem_filter.mp (List.mem_of_mem_take h)
  exact ⟨hmem, by simpa using hfloor⟩

section Answered

variable [FloatOps F] (fl : Json.Library D) (cfg : Config F) (llm : Option (Text → LLMAnswer)) (stats : Stats)
  (candidate : Text) (neighbours : List (MemoryRecord F × F))

/-- What is decided is a question to the answer. -/
theorem decide_asked : (decide fl cfg llm stats candidate neighbours).2 =
    match answer cfg llm candidate neighbours with
    | none => some { rationale := Utf8.bytes "no strong neighbours" }
    | some .throws => none
    | some (.error message) => some { rationale := Utf8.bytes "LLM failure: " ++ message, fromFallback := true }
    | some (.response s) => some (checked (asked cfg neighbours) (parseResponse fl s)) := by
  unfold decide
  rw [strongFrom_nil, answer]
  cases h : asked cfg neighbours with
  | nil => rfl
  | cons nb strong =>
    cases llm with
    | none => rfl
    | some generateJson =>
      simp only [reduceCtorEq, if_false, Option.map_some]
      cases generateJson (buildPrompt candidate (nb :: strong) cfg.maxContentChars) <;> rfl

variable {fl} {s : Text}

omit [FloatOps F] in
theorem fill_sound [Floats F] {cfg : Config F} {strong : List (MemoryRecord F × F)}
    (hstrong : ∀ nb ∈ strong, nb ∈ neighbours ∧ ¬ nb.2 < cfg.similarityFloor) (j : Json D) :
    (Sound cfg neighbours (checked strong (fill j)) ∧
      (¬ ((readOp j).isSome ∧ (readRationale j).isSome) → (checked strong (fill j)).op = .ADD)) ↔
    ∀ op, readOp j = some op → readRationale j = none →
      Foreign strong (readTargets j).2 ∧ (op = .ADD ∨ (readTargets j).2 ≠ []) := by
  unfold fill
  cases hop : readOp j with
  | none => exact iff_of_true ⟨.inl ⟨rfl, rfl, rfl⟩, fun _ => rfl⟩ (by simp)
  | some op =>
    cases hr : readRationale j with
    | some rationale =>
      have htargets := normalised_targets
        { op, targetId := (readTargets j).1, targetIds := (readTargets j).2, rationale }
      refine iff_of_true ⟨?_, fun h => absurd ⟨rfl, rfl⟩ h⟩ (by simp)
      refine (sound_checked_iff hstrong (headed_normalised (headed_readTargets j))).mpr ⟨htargets.mpr, fun ha => ?_⟩
      rw [htargets.mp ha]
      exact fun _ hid => absurd hid List.not_mem_nil
    | none =>
      dsimp only
      rw [sound_checked_iff hstrong (headed_readTargets j), checked_op]
      constructor
      · rintro ⟨⟨-, hadd⟩, hlast⟩ op' he -
        obtain rfl := Option.some.inj he
        rcases hlast (by simp) with ha | ⟨hne, hforeign⟩
        · exact ⟨hadd ha, .inl ha⟩
        · exact ⟨hforeign, .inr hne⟩
      · intro h
        obtain ⟨hforeign, hor⟩ := h op rfl rfl
        exact ⟨⟨fun he => hor.resolve_right fun hne => hne he, fun _ => hforeign⟩,
          fun _ => hor.imp_right fun hne => ⟨hne, hforeign⟩⟩

/-- **When a decision is sound.** The language model does not throw, and what was read of
an answer whose rationale is no text is mended by the second pass: it names nobody who was
asked about, and an `ADD` or somebody. -/
theorem sound_iff :
    (∃ d, (decide fl cfg llm stats candidate neighbours).2 = some d ∧ Sound cfg neighbours d ∧
      ∀ s, answer cfg llm candidate neighbours = some (.response s) → ¬ Completes fl s → d.op = .ADD) ↔
    answer cfg llm candidate neighbours ≠ some .throws ∧
      ∀ s, answer cfg llm candidate neighbours = some (.response s) → Mended fl (asked cfg neighbours) s := by
  rw [decide_asked]
  cases h : answer cfg llm candidate neighbours with
  | none => exact iff_of_true ⟨_, rfl, .inl ⟨rfl, rfl, rfl⟩, by simp⟩ (by simp)
  | some a =>
    cases a with
    | throws => exact iff_of_false (by simp) (by simp)
    | error message => exact iff_of_true ⟨_, rfl, .inl ⟨rfl, rfl, rfl⟩, by simp⟩ (by simp)
    | response s =>
      simp only [Option.some.injEq, exists_eq_left', ne_eq, reduceCtorEq, not_false_eq_true, true_and,
        LLMAnswer.response.injEq, forall_eq']
      unfold Mended Completes parseResponse
      cases hj : (trimmed s).bind fl.parse with
      | none => exact iff_of_true ⟨.inl ⟨rfl, rfl, rfl⟩, fun _ => rfl⟩ (by simp)
      | some j =>
        simp only [Option.some.injEq, exists_eq_left', forall_eq']
        exact fill_sound neighbours (fun nb hnb => mem_asked hnb) j

end Answered

end Deciding

/-! ### An answer with a number for its rationale -/

def replaceNobody : Text := Utf8.bytes "\x7b\"op\":\"REPLACE\",\"target_ids\":[],\"rationale\":5\x7d"

/-- A memory that is like the candidate. -/
def likeIt : MemoryRecord ℚ × ℚ := ({ MemoryRecord.zero with memoryId := 7 }, 9 / 10)

def floored : Config ℚ := { similarityFloor := 7 / 10 }

/-- **A `REPLACE` without targets.** -/
theorem decide_unsound :
    (decide Numbers.whole.text floored (some fun _ => .response replaceNobody) {} [] [likeIt]).2 =
        some { op := .REPLACE } ∧
      ¬ Sound floored [likeIt] { op := .REPLACE } := by
  have hparsed : parseResponse Numbers.whole.text replaceNobody = { op := .REPLACE } := by decide +kernel
  have hlike : ¬ likeIt.2 < floored.similarityFloor := by decide +kernel
  have hasked : asked floored [likeIt] = [likeIt] := by
    rw [asked, List.filter_cons_of_pos (by simpa using hlike), List.filter_nil]
    rfl
  constructor
  · rw [decide_asked, answer, hasked]
    simp [hparsed, checked]
  · rintro (⟨h, -⟩ | ⟨-, h, -⟩)
    · cases h
    · exact h rfl

end Reconciler
end Capture
end Amind
