/-
# The agents' directories

An agent's data is in the directory `data_dir/agents/` with the agent's id after
it, and any text may be an id. The system reads the path up to its first zero
byte and name by name, so ids with slashes or dots may lead to the directory of
another agent, into it, or out of the directory of the agents.
`separate_iff` says for which two ids this does not happen; ids that are single
names are among them (`separate_of_name`).

Key definitions: `agentDir`, `directory`, `Separate`.
Key theorems: `separate_iff`, `separate_of_name`.
-/
import Amind.Lib.Paths
import Amind.Server.AgentStores

namespace Amind
namespace Server

open Amind.Core
open Paths (Step walk below StrictlyBelow Apart)

def slash : UInt8 := 0x2F

/-- What the system takes a name in a path for. -/
def stepOf (name : Text) : Step Text :=
  if name = [] ∨ name = Utf8.bytes "." then .stay
  else if name = Utf8.bytes ".." then .up
  else .down name

def stepsOf (path : Text) : List (Step Text) := (path.splitOn slash).map stepOf

/-- What the system reads of a path. -/
def terminated (path : Text) : Text := path.takeWhile (· ≠ 0)

/-- The directory a path leads to, for a process in the directory `cwd`. There
are no symbolic links. -/
def directory (cwd : List Text) (path : Text) : List Text :=
  let path := terminated path
  walk (if path.head? = some slash then [] else cwd) (stepsOf path)

/-- The directory of an agent, as `initAgentStore` puts it together. -/
def agentDir (dataDir agentId : Text) : Text := dataDir ++ Utf8.bytes "/agents/" ++ agentId

/-- The directory the agents' are to be in. -/
def agentsDir (dataDir : Text) : Text := dataDir ++ Utf8.bytes "/agents"

/-- Two agents' directories are apart, and below that of the agents. -/
def Separate (cwd : List Text) (dataDir a b : Text) : Prop :=
  Apart (directory cwd (agentDir dataDir a)) (directory cwd (agentDir dataDir b)) ∧
    StrictlyBelow (directory cwd (agentDir dataDir a)) (directory cwd (agentsDir dataDir)) ∧
    StrictlyBelow (directory cwd (agentDir dataDir b)) (directory cwd (agentsDir dataDir))

/-- The names of an id under the directory of the agents. -/
def namesOf (cwd : List Text) (dataDir agentId : Text) : Option (List Text) :=
  below (directory cwd (agentsDir dataDir)) (stepsOf (terminated agentId))

/-- Both ids come down to names below the directory of the agents, and neither's
are the first of the other's. -/
def LeadApart (cwd : List Text) (dataDir a b : Text) : Prop :=
  (0 : UInt8) ∉ dataDir ∧ ∃ names names', namesOf cwd dataDir a = some names ∧ namesOf cwd dataDir b = some names' ∧
    names ≠ [] ∧ names' ≠ [] ∧ ¬ names <+: names' ∧ ¬ names' <+: names

theorem terminated_append {p q : Text} (h : (0 : UInt8) ∉ p) : terminated (p ++ q) = p ++ terminated q := by
  unfold terminated
  rw [List.takeWhile_append_of_pos]
  intro b hb
  simp only [ne_eq, decide_eq_true_eq]
  rintro rfl
  exact h hb

theorem not_mem_agentsDir {dataDir : Text} (h : (0 : UInt8) ∉ dataDir) : (0 : UInt8) ∉ agentsDir dataDir := by
  have hagents : (0 : UInt8) ∉ Utf8.bytes "/agents" := by decide
  simp [agentsDir, h, hagents]

theorem agentDir_eq (dataDir agentId : Text) : agentDir dataDir agentId = agentsDir dataDir ++ slash :: agentId := by
  have hbytes : Utf8.bytes "/agents/" = Utf8.bytes "/agents" ++ [slash] := by decide
  rw [agentDir, agentsDir, hbytes, List.append_assoc, List.append_assoc, List.append_assoc, List.singleton_append]

/-- The agent's directory is where the id leads from the directory of the
agents. -/
theorem directory_agentDir {dataDir : Text} (h : (0 : UInt8) ∉ dataDir) (cwd : List Text) (agentId : Text) :
    directory cwd (agentDir dataDir agentId) =
      walk (directory cwd (agentsDir dataDir)) (stepsOf (terminated agentId)) := by
  have hzero := not_mem_agentsDir h
  have hslash : (0 : UInt8) ∉ agentsDir dataDir ++ [slash] := by
    have : (0 : UInt8) ≠ slash := by decide
    simp [hzero, this]
  have hcut : terminated (agentDir dataDir agentId) = agentsDir dataDir ++ slash :: terminated agentId := by
    have := terminated_append (q := agentId) hslash
    rw [agentDir_eq]
    simpa using this
  have hagents : terminated (agentsDir dataDir) = agentsDir dataDir := by
    have := terminated_append (q := []) hzero
    simpa [terminated] using this
  have hne : agentsDir dataDir ≠ [] := by
    have : Utf8.bytes "/agents" ≠ [] := by decide
    simp [agentsDir, this]
  have hhead : (agentsDir dataDir ++ slash :: terminated agentId).head? = (agentsDir dataDir).head? := by
    cases hd : agentsDir dataDir with
    | nil => exact absurd hd hne
    | cons b bs => rfl
  unfold directory
  rw [hcut, hagents]
  dsimp only
  rw [hhead, ← Paths.walk_append, stepsOf, List.splitOn_append_cons_self, List.map_append]
  rfl

/-- A zero byte in the data directory's path hides the ids. -/
theorem directory_agentDir_of_zero {dataDir : Text} (h : (0 : UInt8) ∈ dataDir) (cwd : List Text) (a b : Text) :
    directory cwd (agentDir dataDir a) = directory cwd (agentDir dataDir b) := by
  have hcut : ∀ id : Text, terminated (agentDir dataDir id) = terminated dataDir := by
    intro id
    obtain ⟨p, q, rfl⟩ := List.append_of_mem h
    simp [terminated, agentDir, List.takeWhile_append]
  unfold directory
  rw [hcut, hcut]

/-- **When two agents' directories are apart**, and below that of the agents. -/
theorem separate_iff (cwd : List Text) (dataDir a b : Text) :
    Separate cwd dataDir a b ↔ LeadApart cwd dataDir a b := by
  by_cases hzero : (0 : UInt8) ∈ dataDir
  · refine iff_of_false (fun h => ?_) fun h => h.1 hzero
    exact h.1.1 (directory_agentDir_of_zero hzero cwd a b)
  · unfold Separate LeadApart
    rw [directory_agentDir hzero, directory_agentDir hzero, Paths.strictlyBelow_iff, Paths.strictlyBelow_iff,
      Paths.apart_iff]
    constructor
    · rintro ⟨⟨hab, hba⟩, ⟨names, hnames, hne⟩, names', hnames', hne'⟩
      rw [Paths.below_eq_some.mp hnames, Paths.below_eq_some.mp hnames', List.prefix_append_right_inj] at hab
      rw [Paths.below_eq_some.mp hnames, Paths.below_eq_some.mp hnames', List.prefix_append_right_inj] at hba
      exact ⟨hzero, names, names', hnames, hnames', hne, hne', hab, hba⟩
    · rintro ⟨-, names, names', hnames, hnames', hne, hne', hab, hba⟩
      refine ⟨?_, ⟨names, hnames, hne⟩, names', hnames', hne'⟩
      rw [Paths.below_eq_some.mp hnames, Paths.below_eq_some.mp hnames', List.prefix_append_right_inj,
        List.prefix_append_right_inj]
      exact ⟨hab, hba⟩

/-! ### Ids that are names -/

/-- An id that is a single name. -/
structure IsName (id : Text) : Prop where
  nonzero : (0 : UInt8) ∉ id
  noSlash : slash ∉ id
  notEmpty : id ≠ []
  notDot : id ≠ Utf8.bytes "."
  notUp : id ≠ Utf8.bytes ".."

theorem namesOf_of_name {id : Text} (h : IsName id) (cwd : List Text) (dataDir : Text) :
    namesOf cwd dataDir id = some [id] := by
  have hcut : terminated id = id := by
    have := terminated_append (q := []) h.nonzero
    simpa [terminated] using this
  have hsteps : stepsOf id = [.down id] := by
    rw [stepsOf, List.splitOn_eq_singleton h.noSlash, List.map_singleton, stepOf, if_neg, if_neg h.notUp]
    rintro (hnil | hdot)
    · exact h.notEmpty hnil
    · exact h.notDot hdot
  rw [namesOf, hcut, hsteps, Paths.below_eq_some]
  rfl

/-- **Ids that are single names** have directories apart, whatever they are. -/
theorem separate_of_name {dataDir a b : Text} (hd : (0 : UInt8) ∉ dataDir) (ha : IsName a) (hb : IsName b)
    (hne : a ≠ b) (cwd : List Text) : Separate cwd dataDir a b := by
  rw [separate_iff]
  refine ⟨hd, [a], [b], namesOf_of_name ha cwd dataDir, namesOf_of_name hb cwd dataDir, by simp, by simp, ?_, ?_⟩
  · rintro ⟨t, ht⟩
    exact hne (List.cons.inj ht).1
  · rintro ⟨t, ht⟩
    exact hne (List.cons.inj ht).1.symm

/-- Two agents are registered, and have one directory. -/
theorem registered_together :
    ¬ (∀ (cwd : List Text) (dataDir a b : Text), a ≠ b → Separate cwd dataDir a b) ∧
    (∀ found found' : AgentData ℤ, (((Engine.new ⟨0, 3, 6, 10, 7, 100, .whole⟩
      (fun a => directory [] (agentDir (Utf8.bytes "/srv") (Utf8.bytes a))) true 10).registerAgent
        "ann" found).1.registerAgent "./ann" found').2 = .ok ()) ∧
    directory [] (agentDir (Utf8.bytes "/srv") (Utf8.bytes "ann")) =
      directory [] (agentDir (Utf8.bytes "/srv") (Utf8.bytes "./ann")) := by
  have htogether : directory [] (agentDir (Utf8.bytes "/srv") (Utf8.bytes "ann")) =
      directory [] (agentDir (Utf8.bytes "/srv") (Utf8.bytes "./ann")) := by decide
  refine ⟨fun h => ?_, ?_, htogether⟩
  · exact (h [] (Utf8.bytes "/srv") (Utf8.bytes "ann") (Utf8.bytes "./ann") (by decide)).1.1 htogether
  · have hnew : "./ann" ∉ ["ann"] := by decide
    exact fun _ _ => congrArg Prod.snd (if_neg hnew)

end Server
end Amind
