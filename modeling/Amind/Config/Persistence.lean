/-
# Writing the configuration back

The values are written into the lines of the file that have their keys, and
nowhere else. So a variable without a line is not written, and what is written
is not always what is read again: a value ends at its first line end, loses the
blanks at its ends, and is not loaded if it is empty. `persists_iff` says that
all variables come back, and the rest of the file stays as it was, exactly if
each variable has a line and a value that a line can hold, or its default.

Key definitions: `Persists`, `Kept`.
Key theorems: `load_persistToFile`, `persists_iff`.
-/
import Amind.Config.Variables

namespace Amind
namespace Config

open Amind.Core Lines

/-! ### What a line says -/

theorem splitEntry_of_entry {line k x : Text} (h : entry line = some (k, x)) :
    ∃ e, splitEntry line = some e ∧ trim isBlank e.1 = k ∧ trim isBlank e.2 = x := by
  obtain ⟨e, he, hkx⟩ := Option.map_eq_some_iff.mp h
  exact ⟨e, he, (Prod.mk.inj hkx).1, (Prod.mk.inj hkx).2⟩

theorem entry_eq_none {line : Text} (h : splitEntry line = none) : entry line = none := by
  rw [entry, h]
  rfl

/-- The key of a line has no `=`, and no blanks at its ends; neither part has a
line end. -/
theorem splitEntry_spec {line : Text} {e : Text × Text} (h : splitEntry line = some e) :
    equals ∉ e.1 ∧ e.1.Sublist line ∧ e.2.Sublist line := by
  unfold splitEntry at h
  split at h
  · cases h
  · split at h
    · obtain rfl := Option.some.inj h
      refine ⟨fun hm => ?_, List.takeWhile_sublist _, (List.tail_sublist _).trans (List.dropWhile_sublist _)⟩
      have := List.mem_takeWhile_imp hm
      simp at this
    · cases h

/-- A line that is put together from a key and a value. -/
theorem entry_write {k v : Text} (hk : equals ∉ k) (htrim : Trimmed isBlank k) (hhash : k.head? ≠ some hash) :
    entry (k ++ Utf8.bytes " = " ++ v) = some (k, trim isBlank v) := by
  have hbytes : Utf8.bytes " = " = [0x20, equals, 0x20] := by decide
  have hline : k ++ Utf8.bytes " = " ++ v = (k ++ [0x20]) ++ equals :: 0x20 :: v := by simp [hbytes]
  have hne : k ++ [0x20] ++ equals :: 0x20 :: v ≠ [] := by simp
  have hhead : (k ++ [0x20] ++ equals :: 0x20 :: v).head? ≠ some hash := by
    cases k with
    | nil => exact fun h => absurd (Option.some.inj h) (by decide)
    | cons b k => simpa using hhash
  have hall : ∀ b ∈ k ++ [0x20], (decide (b ≠ equals)) = true := by
    intro b hb
    simp only [ne_eq, decide_eq_true_eq]
    rintro rfl
    rcases List.mem_append.mp hb with hb | hb
    · exact hk hb
    · exact absurd (List.mem_singleton.mp hb) (by decide)
  have hsplit : splitEntry (k ++ Utf8.bytes " = " ++ v) = some (k ++ [0x20], 0x20 :: v) := by
    rw [hline, splitEntry, if_neg (not_or.mpr ⟨hne, hhead⟩), if_pos (by simp), List.takeWhile_append_of_pos hall,
      List.dropWhile_append_of_pos hall]
    simp
  have hk' : trim isBlank (k ++ [0x20]) = k := (trim_concat (by decide) k).trans htrim
  have hv' : trim isBlank (0x20 :: v) = trim isBlank v := trim_cons (by decide) v
  rw [entry, hsplit, Option.map_some, hk', hv']

/-! ### What the file says -/

/-- Entries that are changed by key change the values so. -/
theorem assign_map (f : Text → Text → Text) : ∀ (es : List (Text × Text)) (m m' : AppConfig),
    (∀ k, m' k = (m k).map (f k)) → ∀ k, assign (es.map fun e => (e.1, f e.1 e.2)) m' k = (assign es m k).map (f k)
  | [], _, _, h, k => h k
  | e :: es, m, m', h, k => by
    refine assign_map f es _ _ (fun k => ?_) k
    by_cases hk : k = e.1
    · subst hk
      simp
    · simp [Function.update_of_ne hk, h k]

theorem mem_of_assign {es : List (Text × Text)} {m : AppConfig} {k x : Text} (h : assign es m k = some x) :
    (k, x) ∈ es ∨ m k = some x := by
  induction es generalizing m with
  | nil => exact .inr h
  | cons e es ih =>
    rcases ih h with hmem | hupd
    · exact .inl (List.mem_cons_of_mem _ hmem)
    · dsimp only at hupd
      by_cases hk : k = e.1
      · subst hk
        rw [Function.update_self] at hupd
        rw [← Option.some.inj hupd]
        exact .inl List.mem_cons_self
      · rw [Function.update_of_ne hk] at hupd
        exact .inr hupd

theorem load_noEnv (file : Text) : AppConfig.load noEnv file = assign (readEntries file) fun _ => none := by
  funext k
  have hread : ∀ o : Option Text, (o.map fun val => (noEnv (envKey k)).getD val) = o := by
    intro o
    cases o <;> rfl
  unfold AppConfig.load
  dsimp only
  split
  · next h => exact h.2.symm.trans (hread _)
  · exact hread _

/-- No value of a file has a line end. -/
theorem oneLine_of_load {file k x : Text} (h : AppConfig.load noEnv file k = some x) : eol ∉ x := by
  rw [load_noEnv] at h
  rcases mem_of_assign h with hmem | hnone
  · obtain ⟨line, hline, hentry⟩ := List.mem_filterMap.mp hmem
    obtain ⟨e, he, -, rfl⟩ := splitEntry_of_entry hentry
    have htrim : (trim isBlank e.2).Sublist e.2 := trim_sublist e.2
    have hsub := htrim.trans (splitEntry_spec he).2.2
    exact fun hm => not_mem_of_mem_lines hline (hsub.subset hm)
  · cases hnone

/-! ### What is written -/

namespace VariableManager

variable {m : VariableManager}

theorem find_mem {k : Text} {v : Variable} (h : m.find k = some v) : v ∈ m.vars ∧ v.name = k :=
  ⟨List.mem_of_find?_eq_some h, by simpa using List.find?_some h⟩

theorem find_of_mem {v : Variable} (h : v ∈ m.vars) : m.find v.name = some v := by
  unfold find
  cases hf : m.vars.find? (·.name = v.name) with
  | none =>
    have hne := List.find?_eq_none.mp hf v h
    simp at hne
  | some w =>
    have hw : w ∈ m.vars := List.mem_of_find?_eq_some hf
    have hname : w.name = v.name := by simpa using List.find?_some hf
    rw [List.inj_on_of_nodup_map m.nodup hw h hname]

theorem get_of_mem {v : Variable} (h : v ∈ m.vars) : m.get v.name = v.value := by
  rw [get, find_of_mem h]
  rfl

/-- What becomes of the value of a key. -/
def written (m : VariableManager) (k x : Text) : Text :=
  match m.find k with
  | some v => trim isBlank v.value
  | none => x

/-- A line with a key says what is written for it. -/
theorem entry_rewriteLine (line : Text) :
    entry (m.rewriteLine line) = (entry line).map fun e => (e.1, m.written e.1 e.2) := by
  unfold rewriteLine
  cases hs : splitEntry line with
  | none => rw [entry_eq_none hs, Option.map_none]
  | some e =>
    have hentry : entry line = some (trim isBlank e.1, trim isBlank e.2) := by rw [entry, hs, Option.map_some]
    dsimp only
    cases hf : m.find (trim isBlank e.1) with
    | none => rw [hentry, Option.map_some, written, hf]
    | some v =>
      obtain ⟨hv, hname⟩ := find_mem hf
      have hequals : equals ∉ trim isBlank e.1 := fun h => (splitEntry_spec hs).1 ((trim_sublist _).subset h)
      have hhash : (trim isBlank e.1).head? ≠ some hash := hname ▸ (m.plain v hv).noComment
      rw [hentry, Option.map_some, written, hf]
      exact entry_write hequals (trimmed_trim _) hhash

theorem oneLine_rewriteLine (hm : ∀ v ∈ m.vars, eol ∉ v.value) {line : Text} (h : eol ∉ line) :
    eol ∉ m.rewriteLine line := by
  unfold rewriteLine
  cases hs : splitEntry line with
  | none => exact h
  | some e =>
    dsimp only
    cases hf : m.find (trim isBlank e.1) with
    | none => exact h
    | some v =>
      have hkey : eol ∉ trim isBlank e.1 :=
        fun hk => h (((trim_sublist _).trans (splitEntry_spec hs).2.1).subset hk)
      have hmid : eol ∉ Utf8.bytes " = " := by decide
      simp [hkey, hmid, hm v (find_mem hf).1]

/-- **What the written file says**, if no value has a line end: of each key what
is written for it. -/
theorem load_persistToFile (hm : ∀ v ∈ m.vars, eol ∉ v.value) (file k : Text) :
    AppConfig.load noEnv (m.persistToFile file) k = (AppConfig.load noEnv file k).map (m.written k) := by
  have hlines : lines eol (m.persistToFile file) = (lines eol file).map m.rewriteLine := by
    apply lines_unlines
    intro l hl
    obtain ⟨line, hline, rfl⟩ := List.mem_map.mp hl
    exact oneLine_rewriteLine hm (not_mem_of_mem_lines hline)
  have hentries : readEntries (m.persistToFile file) =
      (readEntries file).map fun e => (e.1, m.written e.1 e.2) := by
    rw [readEntries, hlines, List.filterMap_map, readEntries, List.map_filterMap]
    exact congrArg (fun f => List.filterMap f _) (funext entry_rewriteLine)
  rw [load_noEnv, load_noEnv, hentries]
  exact assign_map m.written _ (fun _ => none) (fun _ => none) (fun _ => rfl) k

end VariableManager

/-! ### What comes back -/

/-- The variables as they are registered, with their defaults. -/
abbrev Registry := { m : VariableManager // ∀ v ∈ m.vars, v.value = v.defaultValue }

/-- The variables come back from the written file, its other keys keep their
values, and it has no new keys but those that were set. -/
structure Persists (r : Registry) (m : VariableManager) (file : Text) (sets : List (Text × Text)) : Prop where
  values : ∀ v ∈ m.vars, (r.val.loadFrom (AppConfig.load noEnv (m.persistToFile file))).get v.name = m.get v.name
  others : ∀ k, m.find k = none → AppConfig.load noEnv (m.persistToFile file) k = AppConfig.load noEnv file k
  noneNew : ∀ k, AppConfig.load noEnv (m.persistToFile file) k ≠ none →
    AppConfig.load noEnv file k ≠ none ∨ k ∈ sets.map (·.1)

/-- The variable has a line in the file and a value that a line can hold, and
that is loaded again; or it has its default. -/
def Kept (file : Text) (v : Variable) : Prop :=
  if AppConfig.load noEnv file v.name = none then v.value = v.defaultValue
  else Trimmed isBlank v.value ∧ eol ∉ v.value ∧ (v.value = [] → v.defaultValue = [])

/-- The names and defaults of the variables. -/
def signature (m : VariableManager) : List (Text × Text) := m.vars.map fun v => (v.name, v.defaultValue)

theorem signature_update (m : VariableManager) (f : Variable → Text) : signature (m.update f) = signature m := by
  rw [signature, VariableManager.update, List.map_map]
  rfl

theorem signature_setAll (stof : Text → Bool) : ∀ (sets : List (Text × Text)) (m : VariableManager),
    signature (m.setAll stof sets) = signature m
  | [], _ => rfl
  | s :: sets, m => by
    refine (signature_setAll stof sets _).trans ?_
    dsimp only
    split
    · next m' h =>
      unfold VariableManager.set at h
      split at h
      · cases h
      · split at h
        · cases h
        · split at h
          · cases h
          · split at h
            · cases h
            · rw [← Except.ok.inj h, signature_update]
    · rfl

theorem get_loadFrom {r : Registry} {m : VariableManager} (h : signature m = signature r.val) (config : AppConfig)
    {v : Variable} (hv : v ∈ m.vars) : (r.val.loadFrom config).get v.name =
      if config.get v.name v.defaultValue ≠ [] then config.get v.name v.defaultValue else v.defaultValue := by
  have hmem : (v.name, v.defaultValue) ∈ signature r.val := h ▸ List.mem_map_of_mem hv
  obtain ⟨w, hw, heq⟩ := List.mem_map.mp hmem
  obtain ⟨hname, hdefault⟩ := Prod.mk.inj heq
  have hloaded := VariableManager.get_of_mem (m := r.val.loadFrom config) (List.mem_map_of_mem hw)
  dsimp only at hloaded
  rw [← hname, ← hdefault, hloaded, r.property w hw]

/-- What a variable is loaded with from the written file. -/
theorem reload_eq {r : Registry} {m : VariableManager} (h : signature m = signature r.val)
    (hm : ∀ v ∈ m.vars, eol ∉ v.value) (file : Text) {v : Variable} (hv : v ∈ m.vars) :
    (r.val.loadFrom (AppConfig.load noEnv (m.persistToFile file))).get v.name =
      if AppConfig.load noEnv file v.name = none ∨ trim isBlank v.value = [] then v.defaultValue
      else trim isBlank v.value := by
  rw [get_loadFrom h _ hv]
  unfold AppConfig.get
  rw [VariableManager.load_persistToFile hm]
  cases AppConfig.load noEnv file v.name with
  | none => simp
  | some x =>
    simp only [Option.map_some, Option.getD_some, VariableManager.written, VariableManager.find_of_mem hv]
    by_cases hnil : trim isBlank v.value = [] <;> simp [hnil]

/-- What is loaded from a file has no line ends. -/
theorem oneLine_loadFrom {r : Registry} {m : VariableManager} (h : signature m = signature r.val) (file : Text)
    {v : Variable} (hv : v ∈ m.vars) : eol ∉ (r.val.loadFrom (AppConfig.load noEnv file)).get v.name := by
  have hdefault := (m.plain v hv).oneLine
  rw [get_loadFrom h _ hv]
  split
  · unfold AppConfig.get
    cases hload : AppConfig.load noEnv file v.name with
    | none => exact hdefault
    | some x => exact oneLine_of_load hload
  · exact hdefault

theorem Kept.oneLine {file : Text} {v : Variable} (hv : v.Plain) (h : Kept file v) : eol ∉ v.value := by
  unfold Kept at h
  split at h
  · exact h ▸ hv.oneLine
  · exact h.2.1

/-- A variable comes back exactly if it is kept. -/
theorem reload_iff {r : Registry} {m : VariableManager} (h : signature m = signature r.val)
    (hm : ∀ v ∈ m.vars, eol ∉ v.value) (file : Text) {v : Variable} (hv : v ∈ m.vars) :
    (r.val.loadFrom (AppConfig.load noEnv (m.persistToFile file))).get v.name = m.get v.name ↔ Kept file v := by
  rw [reload_eq h hm file hv, VariableManager.get_of_mem hv, Kept]
  by_cases hnone : AppConfig.load noEnv file v.name = none
  · rw [if_pos (.inl hnone), if_pos hnone, eq_comm]
  · rw [if_neg hnone]
    have htrimmed := (m.plain v hv).trimmed
    unfold Trimmed at htrimmed ⊢
    constructor
    · intro heq
      split at heq
      · next hnil =>
        -- an empty value is the default, or it would not be loaded again
        have hblank := hnil.resolve_left hnone
        rw [← heq, htrimmed] at hblank
        exact ⟨by rw [← heq, htrimmed], hm v hv, fun _ => hblank⟩
      · next hsome => exact ⟨heq, hm v hv, fun hnil => absurd (by rw [hnil]; rfl) (not_or.mp hsome).2⟩
    · rintro ⟨htrim, -, hempty⟩
      split
      · next hnil =>
        have hblank := hnil.resolve_left hnone
        rw [htrim] at hblank
        rw [hblank, hempty hblank]
      · exact htrim

/-- **When the configuration persists.** Of the registered variables, loaded from
the file under some environment and set as often as one likes. -/
theorem persists_iff (stof : Text → Bool) (r : Registry) (getenv : Text → Option Text) (file : Text)
    (sets : List (Text × Text)) :
    Persists r ((r.val.loadFrom (AppConfig.load getenv file)).setAll stof sets) file sets ↔
      ∀ v ∈ ((r.val.loadFrom (AppConfig.load getenv file)).setAll stof sets).vars, Kept file v := by
  have h : signature ((r.val.loadFrom (AppConfig.load getenv file)).setAll stof sets) = signature r.val := by
    rw [signature_setAll, VariableManager.loadFrom, signature_update]
  generalize (r.val.loadFrom (AppConfig.load getenv file)).setAll stof sets = m at h
  constructor
  · intro hp v hv
    have hm : ∀ w ∈ m.vars, eol ∉ w.value := by
      intro w hw
      rw [← VariableManager.get_of_mem hw, ← hp.values w hw]
      exact oneLine_loadFrom h _ hw
    exact (reload_iff h hm file hv).mp (hp.values v hv)
  · intro hk
    have hm : ∀ w ∈ m.vars, eol ∉ w.value := fun w hw => (hk w hw).oneLine (m.plain w hw)
    refine ⟨fun v hv => (reload_iff h hm file hv).mpr (hk v hv), fun k hnone => ?_, fun k hk => .inl fun hnone => hk ?_⟩
    · rw [VariableManager.load_persistToFile hm]
      cases AppConfig.load noEnv file k <;> simp [VariableManager.written, hnone]
    · rw [VariableManager.load_persistToFile hm, hnone, Option.map_none]

/-- What the engine starts with. -/
def engineRegistry : Registry := ⟨registerVariables, by decide⟩

/-- A file with one line. -/
def portOnly : Text := Utf8.bytes "port = 8080\n"

/-- The variables of the engine after `hot_capacity` was set. -/
def moreHot : VariableManager :=
  (engineRegistry.val.loadFrom (AppConfig.load noEnv portOnly)).setAll (fun _ => true)
    [(Utf8.bytes "hot_capacity", Utf8.bytes "100000")]

/-- A variable without a line is set, and not written: it is loaded with its
default. -/
theorem moreHot_lost :
    ¬ (∀ (stof : Text → Bool) (r : Registry) (file : Text) (sets : List (Text × Text)),
      Persists r ((r.val.loadFrom (AppConfig.load noEnv file)).setAll stof sets) file sets) ∧
    moreHot.get (Utf8.bytes "hot_capacity") = Utf8.bytes "100000" ∧
    (engineRegistry.val.loadFrom (AppConfig.load noEnv (moreHot.persistToFile portOnly))).get
      (Utf8.bytes "hot_capacity") = Utf8.bytes "50000" := by
  have hset : moreHot.get (Utf8.bytes "hot_capacity") = Utf8.bytes "100000" := by decide
  have hloaded : (engineRegistry.val.loadFrom (AppConfig.load noEnv (moreHot.persistToFile portOnly))).get
      (Utf8.bytes "hot_capacity") = Utf8.bytes "50000" := by decide
  refine ⟨fun h => ?_, hset, hloaded⟩
  have hp : Persists engineRegistry moreHot portOnly [(Utf8.bytes "hot_capacity", Utf8.bytes "100000")] := h _ _ _ _
  obtain ⟨v, hv, hname⟩ : ∃ v ∈ moreHot.vars, v.name = Utf8.bytes "hot_capacity" := by decide
  have hback := hp.values v hv
  rw [hname, hset, hloaded] at hback
  exact absurd hback (by decide)

end Config
end Amind
