/-
# The manifest file

A save writes the manifest to a temporary file, as indented JSON, and renames that over the
one that is there. A crash before the rename leaves the old one. Whether all bytes were
written is not looked at: a file that is too short is renamed as well, and the next start
throws.

`load_run` says what is loaded after every run of saves and crashes: the manifest of the
last save that came to its rename, if no more than the last byte of it is missing. So the
engine's directory, of which the manifest is saved at once, is that of its files, as long as
no write falls short (`load_effects`).
-/
import Amind.Lib.Characters
import Amind.Lib.JsonIndent
import Amind.Lib.Run
import Amind.Lsm.Engine
import Amind.Memory.Import

namespace Amind
namespace Lsm

open Amind.Core Amind.Memory Json
open Run (run Along)

/-- What the file has of the manifest. -/
structure StoredManifest where
  checkpointSeq : UInt64
  nextSstId : UInt64
  l0Files : List Text
  l1Files : List Text
  l2Files : List Text
  deriving DecidableEq, Repr

/-- What a start finds. -/
inductive Loaded
  | missing
  | loaded (m : StoredManifest)
  | throws
  deriving DecidableEq, Repr

namespace ManifestFile

section Texts

variable {F D : Type} (nf : Numbers F D)

def CURRENT_VERSION : ℕ := 1

/-- Names as strings. Writing one that is not well formed throws. -/
def namesJson (names : List Text) : Option (List (Json D)) :=
  names.mapM fun t => if h : Utf8.valid t = true then some (.str ⟨t, h⟩) else none

def members (m : StoredManifest) (l0 l1 l2 : List (Json D)) : List (Utf8Text × Json D) :=
  [(Utf8.lit "version", .int CURRENT_VERSION),
    (Utf8.lit "checkpoint_seq", .int m.checkpointSeq.toNat),
    (Utf8.lit "next_sst_id", .int m.nextSstId.toNat),
    (Utf8.lit "l0", .arr l0),
    (Utf8.lit "l1", .arr l1),
    (Utf8.lit "l2", .arr l2)]

def toJson (m : StoredManifest) : Option (Json D) := do
  let l0 ← namesJson m.l0Files
  let l1 ← namesJson m.l1Files
  let l2 ← namesJson m.l2Files
  pure (.obj (Keyed.ofPairs (members m l0 l1 l2)))

/-- The text that is written. -/
def text (m : StoredManifest) : Option Text := (toJson m).map fun j => nf.text.dumpIndent 2 j ++ [0x0A]

def getNames : Json D → Option (List Text)
  | .arr js => js.mapM getText
  | _ => none

def fromJson (j : Json D) : Option StoredManifest := do
  let checkpointSeq ← member j "checkpoint_seq" (fun v => (toInt nf v).map UInt64.ofInt) 0
  let nextSstId ← member j "next_sst_id" (fun v => (toInt nf v).map UInt64.ofInt) 0
  let l0Files ← member j "l0" getNames []
  let l1Files ← member j "l1" getNames []
  let l2Files ← member j "l2" getNames []
  pure ⟨checkpointSeq, nextSstId, l0Files, l1Files, l2Files⟩

def load : Option Text → Loaded
  | none => .missing
  | some s =>
    match (nf.text.parse s).bind (fromJson nf) with
    | some m => .loaded m
    | none => .throws

/-! ### A text that is whole -/

theorem mapM_getText : ∀ {names : List Text} {js : List (Json D)}, namesJson names = some js →
    js.mapM getText = some names
  | [], js, h => by
    obtain rfl : [] = js := Option.some.inj h
    rfl
  | t :: names, js, h => by
    unfold namesJson at h
    rw [List.mapM_cons] at h
    obtain ⟨j, hj, h⟩ := Option.bind_eq_some_iff.mp h
    obtain ⟨js', hrest, h⟩ := Option.bind_eq_some_iff.mp h
    obtain rfl : j :: js' = js := Option.some.inj h
    obtain ⟨ht, rfl⟩ : ∃ ht : Utf8.valid t = true, Json.str ⟨t, ht⟩ = j := by
      split at hj
      · next ht => exact ⟨ht, Option.some.inj hj⟩
      · cases hj
    rw [List.mapM_cons, mapM_getText hrest]
    rfl

theorem wellFormed_namesJson {names : List Text} {js : List (Json D)} (h : namesJson names = some js) :
    ∀ j ∈ js, Json.WellFormed j := by
  induction names generalizing js with
  | nil =>
    obtain rfl : [] = js := Option.some.inj h
    exact fun j hj => by cases hj
  | cons t names ih =>
    unfold namesJson at h
    rw [List.mapM_cons] at h
    obtain ⟨j, hj, h⟩ := Option.bind_eq_some_iff.mp h
    obtain ⟨js', hrest, h⟩ := Option.bind_eq_some_iff.mp h
    obtain rfl : j :: js' = js := Option.some.inj h
    refine List.forall_mem_cons.mpr ⟨?_, ih hrest⟩
    split at hj
    · rw [← Option.some.inj hj]
      exact .str _
    · cases hj

theorem nodup_members (m : StoredManifest) (l0 l1 l2 : List (Json D)) : ((members m l0 l1 l2).map Prod.fst).Nodup := by
  show ([Utf8.lit "version", Utf8.lit "checkpoint_seq", Utf8.lit "next_sst_id", Utf8.lit "l0", Utf8.lit "l1",
    Utf8.lit "l2"] : List Utf8Text).Nodup
  decide

/-- **What is written is read back.** -/
theorem fromJson_toJson {m : StoredManifest} {j : Json D} (h : toJson m = some j) : fromJson nf j = some m := by
  obtain ⟨l0, h0, h⟩ := Option.bind_eq_some_iff.mp h
  obtain ⟨l1, h1, h⟩ := Option.bind_eq_some_iff.mp h
  obtain ⟨l2, h2, h⟩ := Option.bind_eq_some_iff.mp h
  obtain rfl : _ = j := Option.some.inj h
  have hmember : ∀ {α : Type} (i : ℕ) {key : String} {v : Json D} (get : Json D → Option α) (otherwise : α),
      (members m l0 l1 l2)[i]? = some (Utf8.lit key, v) →
      member (.obj (Keyed.ofPairs (members m l0 l1 l2))) key get otherwise = get v :=
    fun i key v get otherwise hi => member_ofPairs (nodup_members m l0 l1 l2) (List.mem_of_getElem? hi) get otherwise
  have hnames : ∀ {names : List Text} {js : List (Json D)}, namesJson names = some js →
      getNames (.arr js) = some names :=
    fun hjs => mapM_getText hjs
  unfold fromJson
  rw [hmember 1 _ _ rfl, hmember 2 _ _ rfl, hmember 3 _ _ rfl, hmember 4 _ _ rfl, hmember 5 _ _ rfl, hnames h0,
    hnames h1,
    hnames h2]
  simp [toInt, ofInt_toNat64]

theorem wellFormed_toJson {m : StoredManifest} {j : Json D} (h : toJson m = some j) :
    ∃ ms, j = .obj ms ∧ Json.WellFormed j := by
  obtain ⟨l0, h0, h⟩ := Option.bind_eq_some_iff.mp h
  obtain ⟨l1, h1, h⟩ := Option.bind_eq_some_iff.mp h
  obtain ⟨l2, h2, h⟩ := Option.bind_eq_some_iff.mp h
  obtain rfl : _ = j := Option.some.inj h
  refine ⟨_, rfl, wellFormed_ofPairs fun x hx => ?_⟩
  simp only [members, List.mem_cons, List.not_mem_nil, or_false] at hx
  rcases hx with rfl | rfl | rfl | rfl | rfl | rfl
  · exact wellFormed_nat (by decide)
  · exact wellFormed_nat m.checkpointSeq.toNat_lt
  · exact wellFormed_nat m.nextSstId.toNat_lt
  · exact .arr (wellFormed_namesJson h0)
  · exact .arr (wellFormed_namesJson h1)
  · exact .arr (wellFormed_namesJson h2)

/-- **What a start finds in a text that was cut**: the manifest, if no more is missing than
the newline at the end. -/
theorem load_take (hfl : nf.text.Lawful) {m : StoredManifest} {t : Text} (h : text nf m = some t) (n : ℕ) :
    load nf (some (t.take n)) = if t.length ≤ n + 1 then .loaded m else .throws := by
  obtain ⟨j, hj, rfl⟩ := Option.map_eq_some_iff.mp h
  obtain ⟨ms, rfl, hwell⟩ := wellFormed_toJson hj
  have hlen : (nf.text.dumpIndent 2 (.obj ms) ++ [0x0A]).length = (nf.text.dumpIndent 2 (.obj ms)).length + 1 := by
    rw [List.length_append, List.length_singleton]
  rw [hlen, load]
  by_cases hn : (nf.text.dumpIndent 2 (.obj ms)).length ≤ n
  · -- what is left of the newline is blank
    have hblanks : Blanks (([0x0A] : List UInt8).take (n - (nf.text.dumpIndent 2 (.obj ms)).length)) := by
      intro b hb
      rw [List.mem_singleton.mp (List.mem_of_mem_take hb)]
      decide
    have hparse := hfl.parse_dumpIndent 2 hwell hblanks
    rw [List.take_append, List.take_of_length_le hn, hparse, Option.bind_some, fromJson_toJson nf hj,
      if_pos (Nat.succ_le_succ hn)]
  · have hcut := hfl.parse_take_dumpIndent 2 hwell (Nat.not_le.mp hn)
    rw [List.take_append_of_le_length (Nat.not_le.mp hn).le, hcut, if_neg fun h => hn (Nat.le_of_succ_le_succ h)]
    rfl

end Texts

/-! ### Saves and crashes -/

/-- The files of a manifest. -/
structure Files where
  manifest : Option Text := none
  temp : Option Text := none

/-- What happens to the files. `written` is how many bytes get to the temporary file. -/
inductive Event
  | save (m : StoredManifest) (written : ℕ)
  /-- A crash before the rename. -/
  | crash (m : StoredManifest) (written : ℕ)

section Runs

variable {F D : Type} (nf : Numbers F D)

/-- The temporary file is opened anew, written and renamed. A manifest that cannot be written
throws once it is open. -/
def step (d : Files) : Event → Files
  | .save m written =>
    match text nf m with
    | some t => ⟨some (t.take written), none⟩
    | none => { d with temp := some [] }
  | .crash m written => { d with temp := some (((text nf m).getD []).take written) }

/-- What a save that comes to its rename leaves to be found. -/
def Event.found : Event → Option Loaded
  | .save m written => (text nf m).map fun t => if t.length ≤ written + 1 then .loaded m else .throws
  | .crash _ _ => none

variable {nf}

theorem load_step (hfl : nf.text.Lawful) (d : Files) (ev : Event) :
    load nf (step nf d ev).manifest = (ev.found nf).getD (load nf d.manifest) := by
  cases ev with
  | save m written =>
    cases ht : text nf m with
    | none => simp only [step, Event.found, ht, Option.map_none, Option.getD_none]
    | some t =>
      simp only [step, Event.found, ht, Option.map_some, Option.getD_some]
      exact load_take nf hfl ht written
  | crash m written => rfl

/-- **What is found after every run** of saves and crashes is what the last save left that came
to its rename: its manifest, if no more than its last byte is missing, or else the start throws.
A crash leaves what was there. -/
theorem load_run (hfl : nf.text.Lawful) (evs : List Event) :
    load nf (run (step nf) {} evs).manifest = ((evs.filterMap (Event.found nf)).getLast?).getD .missing := by
  refine Run.run_inv (step nf) (C := fun _ _ => True)
    (I := fun evs d => load nf d.manifest = ((evs.filterMap (Event.found nf)).getLast?).getD .missing)
    (fun evs d ev hd _ => ?_) evs [] {} rfl (Run.along_true _ _)
  rw [load_step hfl, hd, List.filterMap_append]
  cases hfound : ev.found nf with
  | none => simp [hfound]
  | some x => simp [hfound]

end Runs

/-! ### Two saves -/

def oneTable : StoredManifest := ⟨5, 2, [Utf8.bytes "sst_000001.sst"], [], []⟩

def twoTables : StoredManifest := ⟨9, 3, [Utf8.bytes "sst_000002.sst", Utf8.bytes "sst_000001.sst"], [], []⟩

/-- A crash in the second save leaves the first. A second save of which no more than 50 bytes are
written is the one that is found. -/
theorem load_secondSave :
    load Numbers.whole (run (step Numbers.whole) {} [.save oneTable 200, .crash twoTables 50]).manifest =
      .loaded oneTable ∧
      load Numbers.whole (run (step Numbers.whole) {} [.save oneTable 200, .save twoTables 50]).manifest = .throws :=
  ⟨(load_run lawful_integers _).trans (by decide +kernel), (load_run lawful_integers _).trans (by decide +kernel)⟩

end ManifestFile

/-! ### The engine's directory -/

/-- The manifest with the names the files have. -/
def Manifest.stored (m : Manifest) : StoredManifest where
  checkpointSeq := m.checkpointSeq
  nextSstId := UInt64.ofNat m.nextSstId
  l0Files := m.l0Files.map fun f => Utf8.bytes f.render
  l1Files := m.l1Files.map fun f => Utf8.bytes f.render
  l2Files := m.l2Files.map fun f => Utf8.bytes f.render

/-- What a start finds in a directory. -/
def Disk.loaded (d : Disk) : Loaded := d.manifest.elim .missing fun m => .loaded m.stored

namespace ManifestFile

section Directory

variable {F D : Type} (nf : Numbers F D)

/-- The save of an effect, all of it written. -/
def ofEffect : Effect → Option Event
  | .manifestSaved m => some (.save m.stored ((text nf m.stored).getD []).length)
  | _ => none

variable {nf}

theorem namesJson_bytes (fs : List FileName) :
    (namesJson (D := D) (fs.map fun f => Utf8.bytes f.render)).isSome = true := by
  induction fs with
  | nil => rfl
  | cons f fs ih =>
    obtain ⟨js, hjs⟩ := Option.isSome_iff_exists.mp ih
    unfold namesJson at hjs ⊢
    rw [List.map_cons, List.mapM_cons, dif_pos (Utf8.valid_bytes _), hjs]
    rfl

/-- The engine's own manifests can be written. -/
theorem text_stored (m : Manifest) : (text nf m.stored).isSome = true := by
  obtain ⟨l0, h0⟩ := Option.isSome_iff_exists.mp (namesJson_bytes (D := D) m.l0Files)
  obtain ⟨l1, h1⟩ := Option.isSome_iff_exists.mp (namesJson_bytes (D := D) m.l1Files)
  obtain ⟨l2, h2⟩ := Option.isSome_iff_exists.mp (namesJson_bytes (D := D) m.l2Files)
  have hjson : toJson (D := D) m.stored = some (.obj (Keyed.ofPairs (members m.stored l0 l1 l2))) := by
    unfold toJson Manifest.stored
    rw [h0, h1, h2]
    rfl
  rw [text, hjson]
  rfl

/-- **The directory's manifest is that of its files.** The effects of the engine on the directory,
one of them maybe cut short by a crash in the middle of its save, leave files of which a start
finds the manifest that the directory has. -/
theorem load_effects (hfl : nf.text.Lawful) (E : Wal.Env) (d : Disk) (fs : Files) (h : load nf fs.manifest = d.loaded)
    (w : List Effect) (torn : Option (StoredManifest × ℕ)) :
    load nf (run (step nf) fs (w.filterMap (ofEffect nf) ++ torn.toList.map fun p => .crash p.1 p.2)).manifest =
      (d.applyAll E w).loaded := by
  have htorn : ∀ fs : Files, load nf (run (step nf) fs (torn.toList.map fun p => .crash p.1 p.2)).manifest =
      load nf fs.manifest := by
    intro fs
    cases torn <;> rfl
  rw [Run.run_append, htorn]
  induction w generalizing d fs with
  | nil => exact h
  | cons x w ih =>
    cases x with
    | manifestSaved m =>
      obtain ⟨t, ht⟩ := Option.isSome_iff_exists.mp (@text_stored _ _ nf m)
      refine ih (d.apply E (.manifestSaved m)) _ ?_
      rw [load_step hfl, Event.found, ht, Option.map_some, Option.getD_some, Option.getD_some,
        if_pos (Nat.le_succ _)]
      rfl
    | tableWritten f t => exact ih (d.apply E (.tableWritten f t)) fs h
    | walAppended r clk => exact ih (d.apply E (.walAppended r clk)) fs h
    | walTruncated => exact ih (d.apply E .walTruncated) fs h
    | fileRemoved f => exact ih (d.apply E (.fileRemoved f)) fs h

end Directory

/-- A flush of a new engine, and a crash in the save of the next one. -/
theorem load_effects_flushed : load Numbers.whole (run (step Numbers.whole) {}
    ([Effect.manifestSaved ⟨1, 1, [.sst 0], [], []⟩, .walTruncated].filterMap (ofEffect Numbers.whole) ++
      (some (twoTables, 50)).toList.map fun p => .crash p.1 p.2)).manifest =
    (Disk.empty.applyAll (.ofCrc fun _ => 0) [.manifestSaved ⟨1, 1, [.sst 0], [], []⟩, .walTruncated]).loaded :=
  load_effects lawful_integers (.ofCrc fun _ => 0) .empty {} rfl _ _

end ManifestFile

end Lsm
end Amind
