/-
# Names of new tables

A flush names its table by the counter of the manifest, a compaction by that of
the engine. With a manifest the names are new: every id that a listed table has
is below its counter. Without one the tables of the directory are listed and
both counters start above the ids of the L0 files, but those of the other levels
are not looked at. So a later compaction can take the name of a table that is
still listed.

`names_new` says that this is the only way: if at every start without a manifest
the ids of L1 and L2 are below those of L0, no name that is chosen is one of a
listed table that the compaction does not replace.
-/
import Amind.Lsm.Live

namespace Amind
namespace Lsm

open Run (run Along)
open Wal (Env)

/-! ### Names -/

/-- A number with leading zeros. -/
theorem ofDigitChars_zeros : ∀ (n : ℕ) (l : List Char),
    Nat.ofDigitChars 10 (List.replicate n '0' ++ l) 0 = Nat.ofDigitChars 10 l 0
  | 0, _ => rfl
  | n + 1, l => ofDigitChars_zeros n l

namespace FileName

/-- What a name starts with. -/
def stem : FileName → List Char
  | .sst _ => ['s', 's', 't', '_']
  | .l1 _ => ['L', '1', '_']
  | .l2 _ => ['L', '2', '_']

def number : FileName → ℕ
  | .sst id => id
  | .l1 id => id
  | .l2 id => id

theorem toList_render (f : FileName) : ∃ zeros, f.render.toList =
    f.stem ++ (List.replicate zeros '0' ++ Nat.toDigits 10 f.number ++ ['.', 's', 's', 't']) := by
  cases f with
  | sst id => exact ⟨6 - (toString id).length, by simp [render, stem, number]⟩
  | l1 id => exact ⟨0, by simp [render, stem, number]⟩
  | l2 id => exact ⟨0, by simp [render, stem, number]⟩

/-- Names that are equal as the directory has them are equal. -/
theorem render_injective : Function.Injective render := by
  intro f g h
  obtain ⟨zf, hf⟩ := f.toList_render
  obtain ⟨zg, hg⟩ := g.toList_render
  have hlist := congrArg String.toList h
  rw [hf, hg] at hlist
  have hstem : f.stem = g.stem := by
    cases f <;> cases g <;> simp [stem] at hlist ⊢
  rw [hstem] at hlist
  have hdigits := congrArg (fun l => Nat.ofDigitChars 10 l 0)
    (List.append_cancel_right (List.append_cancel_left hlist))
  simp only [ofDigitChars_zeros, Nat.ofDigitChars_ten_toDigits] at hdigits
  cases f <;> cases g <;> simp_all [stem, number]

end FileName

/-! ### The names that are chosen -/

/-- A name that is chosen, and the names of the listed tables that are not
replaced by the table it is for. -/
structure Choice where
  name : FileName
  kept : List FileName

/-- The name is none of a table that is kept. -/
def Choice.New (c : Choice) : Prop := ∀ f ∈ c.kept, c.name.render ≠ f.render

namespace Engine

variable (e : Engine)

/-- The name `generateSSTPath` chooses. -/
def flushChoice : Choice :=
  ⟨.sst e.manifest.nextSstId, (e.l0Tables ++ e.l1Tables ++ e.l2Tables).map (·.name)⟩

/-- The name a compaction of the level chooses. -/
def mergeChoice : Level → Choice
  | .l0 => ⟨Level.l0.outputName e.nextSstId, (e.l1Tables ++ e.l2Tables).map (·.name)⟩
  | .l1 => ⟨Level.l1.outputName e.nextSstId, (e.l0Tables ++ e.l2Tables).map (·.name)⟩

def compactL0Choices : List Choice :=
  if e.l0Tables.length < 2 then []
  else
    e.mergeChoice .l0 ::
      if L1_COMPACTION_THRESHOLD ≤ (e.afterMerge .l0).l1Tables.length then [(e.afterMerge .l0).mergeChoice .l1] else []

def maybeCompactChoices : List Choice := if L0_COMPACTION_THRESHOLD ≤ e.l0Tables.length then e.compactL0Choices else []

/-- The memtable is flushed, and L0 compacted if it is full then. -/
def flushChoices : List Choice := e.flushChoice :: e.flushed.maybeCompactChoices

/-- The names an operation chooses, in order. -/
def choices : Op → List Choice
  | .putRaw k data full _ =>
    if full then
      flushChoices { e with sequenceNumber := e.sequenceNumber + 1, activeMemtable := e.activeMemtable.putRaw k data }
    else []
  | .remove _ _ => []
  | .flush => if e.activeMemtable.isEmpty then [] else [e.flushChoice]
  | .lazyFlush => if e.activeMemtable.isEmpty then [] else e.flushChoices
  | .maybeCompact => e.maybeCompactChoices
  | .forceCompact => if 2 ≤ e.l0Tables.length then e.compactL0Choices else []

/-- The names that opening a directory chooses. -/
def constructChoices (E : Env) (d : Disk) : List Choice :=
  let e := (loadTables d).1.replayWal E d
  if e.activeMemtable.isEmpty then [] else e.flushChoices

end Engine

/-- The file that an effect writes. -/
def Effect.written : Effect → Option FileName
  | .tableWritten f _ => some f
  | _ => none

section Covered

variable {e : Engine}

theorem written_mergeLevel (level : Level) :
    (e.mergeLevel level).2.filterMap Effect.written = [(e.mergeChoice level).name] := by
  have hremoved : ∀ fs : List FileName, (fs.map Effect.fileRemoved).filterMap Effect.written = [] := by
    intro fs
    induction fs with
    | nil => rfl
    | cons f fs ih => exact ih
  rw [Engine.mergeLevel_effects, List.filterMap_append, hremoved]
  cases level <;> rfl

theorem written_compactL0 : e.compactL0.2.filterMap Effect.written = e.compactL0Choices.map (·.name) := by
  have hlen : (e.afterMerge .l0).l1Tables.length = e.l1Tables.length + 1 := by
    show (e.l1Tables ++ [_]).length = _
    rw [List.length_append]
    rfl
  unfold Engine.compactL0Choices
  rw [hlen]
  rcases e.compactL0_cases with ⟨hlt, hc⟩ | ⟨h2, hsmall, hc⟩ | ⟨h2, hfull, hc⟩
  · rw [hc, if_pos hlt]
    rfl
  · rw [hc, if_neg (Nat.not_lt.mpr h2), if_neg (Nat.not_le.mpr hsmall), written_mergeLevel]
    rfl
  · rw [hc, if_neg (Nat.not_lt.mpr h2), if_pos hfull]
    dsimp only
    rw [List.filterMap_append, written_mergeLevel, written_mergeLevel]
    rfl

theorem written_maybeCompact : e.maybeCompact.2.filterMap Effect.written = e.maybeCompactChoices.map (·.name) := by
  unfold Engine.maybeCompact Engine.maybeCompactChoices
  split
  · exact written_compactL0
  · rfl

/-- Every table that an operation writes has a name that was chosen. -/
theorem written_exec (hi : e.immutableMemtable = none) (op : Op) :
    (e.exec op).2.filterMap Effect.written = (e.choices op).map (·.name) := by
  cases op with
  | putRaw k data full clk =>
    cases full with
    | false => rfl
    | true => exact congrArg (List.cons _) written_maybeCompact
  | remove k clk => rfl
  | flush =>
    show e.flushLocked.2.filterMap _ = (if e.activeMemtable.isEmpty then [] else [e.flushChoice]).map _
    cases hm : e.activeMemtable.isEmpty with
    | true => rw [Engine.flushLocked_empty hm]; rfl
    | false => rw [Engine.flushLocked_eq hi hm]; rfl
  | lazyFlush =>
    show e.lazyFlush.2.filterMap _ = (if e.activeMemtable.isEmpty then [] else e.flushChoices).map _
    cases hm : e.activeMemtable.isEmpty with
    | true => rw [Engine.lazyFlush_empty hm]; rfl
    | false =>
      rw [Engine.lazyFlush_eq e hm, Engine.flushLocked_eq hi hm]
      exact congrArg (List.cons _) written_maybeCompact
  | maybeCompact => exact written_maybeCompact
  | forceCompact =>
    show e.forceCompact.2.filterMap _ = (if 2 ≤ e.l0Tables.length then e.compactL0Choices else []).map _
    unfold Engine.forceCompact
    split
    · exact written_compactL0
    · rfl

end Covered

/-! ### Names are new while the layout holds -/

section Layout

variable {E : Env} {e : Engine} {d : Disk}

theorem Choice.new_of_not_mem {c : Choice} (h : c.name ∉ c.kept) : c.New :=
  fun _ hf he => h (FileName.render_injective he ▸ hf)

/-- The tables of the engine are listed in the manifest. -/
theorem Layout.mem_files (h : Layout e d) {t : Table} (ht : t ∈ e.l0Tables ++ e.l1Tables ++ e.l2Tables) :
    t.name ∈ e.manifest.files := by
  simp only [Manifest.files, List.mem_append] at ht ⊢
  rcases ht with (ht | ht) | ht
  · rw [h.l0] at ht
    exact .inl (.inl (Disk.mem_load.mp ht).1)
  · exact .inl (.inr (Disk.mem_load.mp (h.l1.mem_iff.mp ht)).1)
  · exact .inr (Disk.mem_load.mp (h.l2.mem_iff.mp ht)).1

theorem Layout.flushChoice_new (h : Layout e d) : e.flushChoice.New := by
  refine Choice.new_of_not_mem fun hf => ?_
  obtain ⟨t, ht, he⟩ := List.mem_map.mp hf
  have hname : t.name = .sst e.manifest.nextSstId := he
  exact h.listed.sst_fresh (hname ▸ h.mem_files ht)

theorem Layout.mergeChoice_new (h : Layout e d) (level : Level) : (e.mergeChoice level).New := by
  refine Choice.new_of_not_mem fun hf => ?_
  have hkept : ∃ t ∈ e.l0Tables ++ e.l1Tables ++ e.l2Tables, t.name = level.outputName e.nextSstId := by
    cases level with
    | l0 =>
      obtain ⟨t, ht, he⟩ := List.mem_map.mp hf
      refine ⟨t, ?_, he⟩
      rw [List.append_assoc]
      exact List.mem_append_right _ ht
    | l1 =>
      obtain ⟨t, ht, he⟩ := List.mem_map.mp hf
      refine ⟨t, ?_, he⟩
      rcases List.mem_append.mp ht with ht | ht
      · exact List.mem_append_left _ (List.mem_append_left _ ht)
      · exact List.mem_append_right _ ht
  obtain ⟨t, ht, he⟩ := hkept
  exact h.listed.output_fresh level (he ▸ h.mem_files ht)

theorem Layout.compactL0Choices_new (h : Layout e d) : ∀ c ∈ e.compactL0Choices, c.New := by
  unfold Engine.compactL0Choices
  split
  · exact fun c hc => absurd hc List.not_mem_nil
  · refine List.forall_mem_cons.mpr ⟨h.mergeChoice_new .l0, ?_⟩
    split
    · exact List.forall_mem_singleton.mpr ((h.mergeLevel_l0 (E := Env.ofCrc crc32c)).mergeChoice_new .l1)
    · exact fun c hc => absurd hc List.not_mem_nil

theorem Layout.maybeCompactChoices_new (h : Layout e d) : ∀ c ∈ e.maybeCompactChoices, c.New := by
  unfold Engine.maybeCompactChoices
  split
  · exact h.compactL0Choices_new
  · exact fun c hc => absurd hc List.not_mem_nil

theorem Layout.flushChoices_new (h : Layout e d) : ∀ c ∈ e.flushChoices, c.New :=
  List.forall_mem_cons.mpr
    ⟨h.flushChoice_new, (h.saveFirst (E := Env.ofCrc crc32c)).1.maybeCompactChoices_new⟩

/-- The names an operation chooses are new. -/
theorem Layout.choices_new (h : Layout e d) (op : Op) : ∀ c ∈ e.choices op, c.New := by
  have hnone : ∀ c : Choice, c ∈ ([] : List Choice) → c.New := fun c hc => absurd hc List.not_mem_nil
  cases op with
  | putRaw k data full clk =>
    have hw : Layout { e with sequenceNumber := e.sequenceNumber + 1, activeMemtable := e.activeMemtable.putRaw k data }
        d := h.writes _ _ rfl fun _ => rfl
    cases full with
    | false => exact hnone
    | true => exact hw.flushChoices_new
  | remove k clk => exact hnone
  | flush =>
    show ∀ c ∈ (if e.activeMemtable.isEmpty then [] else [e.flushChoice]), c.New
    split
    · exact hnone
    · exact List.forall_mem_singleton.mpr h.flushChoice_new
  | lazyFlush =>
    show ∀ c ∈ (if e.activeMemtable.isEmpty then [] else e.flushChoices), c.New
    split
    · exact hnone
    · exact h.flushChoices_new
  | maybeCompact => exact h.maybeCompactChoices_new
  | forceCompact =>
    show ∀ c ∈ (if 2 ≤ e.l0Tables.length then e.compactL0Choices else []), c.New
    split
    · exact h.compactL0Choices_new
    · exact hnone

end Layout

/-! ### Starting without a manifest -/

/-- The tables of L1 and L2 hold no deletions, listed or not. -/
def Disk.Merged (d : Disk) : Prop :=
  ∀ f ∈ d.files, (∃ n, f.1 = .l1 n ∨ f.1 = .l2 n) → f.2.NoDeletion

/-- The effect keeps that. -/
def Effect.Merged : Effect → Prop
  | .tableWritten f t => (∃ n, f = .l1 n ∨ f = .l2 n) → t.NoDeletion
  | _ => True

section Scan

variable {E : Env} {e : Engine} {d : Disk}

theorem Disk.Merged.apply (h : d.Merged) {x : Effect} (hx : x.Merged) : (d.apply E x).Merged := by
  cases x with
  | tableWritten f t =>
    intro g hg
    rcases List.mem_cons.mp hg with rfl | hg
    · exact hx
    · exact h g (List.mem_of_mem_filter hg)
  | fileRemoved f => exact fun g hg => h g (List.mem_of_mem_filter hg)
  | manifestSaved m => exact h
  | walTruncated => exact h
  | walAppended r clk => exact h

theorem Disk.Merged.applyAll : ∀ {w : List Effect} {d : Disk}, d.Merged → (∀ x ∈ w, x.Merged) → (d.applyAll E w).Merged
  | [], _, h, _ => h
  | _ :: _, _, h, hw =>
    (h.apply (hw _ List.mem_cons_self)).applyAll fun x hx => hw x (List.mem_cons_of_mem _ hx)

theorem merged_mergeLevel (level : Level) : ∀ x ∈ (e.mergeLevel level).2, x.Merged := by
  intro x hx
  rw [Engine.mergeLevel_effects] at hx
  simp only [List.cons_append, List.nil_append, List.mem_cons, List.mem_map] at hx
  rcases hx with rfl | rfl | ⟨f, -, rfl⟩
  · exact fun _ => SSTable.noDeletion_mergeTables _
  · trivial
  · trivial

theorem merged_compactL0 : ∀ x ∈ e.compactL0.2, x.Merged := by
  rcases e.compactL0_cases with ⟨-, hc⟩ | ⟨-, -, hc⟩ | ⟨-, -, hc⟩
  · rw [hc]
    exact fun x hx => absurd hx List.not_mem_nil
  · rw [hc]
    exact merged_mergeLevel .l0
  · rw [hc]
    exact List.forall_mem_append.mpr ⟨merged_mergeLevel .l0, merged_mergeLevel .l1⟩

theorem merged_maybeCompact : ∀ x ∈ e.maybeCompact.2, x.Merged := by
  unfold Engine.maybeCompact
  split
  · exact merged_compactL0
  · exact fun x hx => absurd hx List.not_mem_nil

/-- A flushed table is none of a compaction. -/
theorem merged_sst (id : ℕ) (t : SSTable) : (Effect.tableWritten (.sst id) t).Merged := by
  rintro ⟨n, he | he⟩ <;> cases he

theorem merged_flushLocked (hi : e.immutableMemtable = none) : ∀ x ∈ e.flushLocked.2, x.Merged := by
  cases hm : e.activeMemtable.isEmpty with
  | true =>
    rw [Engine.flushLocked_empty hm]
    exact fun x hx => absurd hx List.not_mem_nil
  | false =>
    rw [Engine.flushLocked_eq hi hm]
    exact List.forall_mem_cons.mpr ⟨merged_sst _ _, List.forall_mem_cons.mpr ⟨trivial,
      List.forall_mem_singleton.mpr trivial⟩⟩

theorem merged_exec (hi : e.immutableMemtable = none) (op : Op) : ∀ x ∈ (e.exec op).2, x.Merged := by
  cases op with
  | putRaw k data full clk =>
    cases full with
    | false => exact List.forall_mem_singleton.mpr trivial
    | true =>
      exact List.forall_mem_cons.mpr ⟨trivial, List.forall_mem_cons.mpr ⟨merged_sst _ _, List.forall_mem_cons.mpr
        ⟨trivial, List.forall_mem_cons.mpr ⟨trivial, merged_maybeCompact⟩⟩⟩⟩
  | remove k clk => exact List.forall_mem_singleton.mpr trivial
  | flush => exact merged_flushLocked hi
  | lazyFlush =>
    show ∀ x ∈ e.lazyFlush.2, x.Merged
    cases hm : e.activeMemtable.isEmpty with
    | true =>
      rw [Engine.lazyFlush_empty hm]
      exact fun x hx => absurd hx List.not_mem_nil
    | false =>
      rw [Engine.lazyFlush_eq e hm]
      exact List.forall_mem_append.mpr ⟨merged_flushLocked hi, merged_maybeCompact⟩
  | maybeCompact => exact merged_maybeCompact
  | forceCompact =>
    show ∀ x ∈ e.forceCompact.2, x.Merged
    unfold Engine.forceCompact
    split
    · exact merged_compactL0
    · exact fun x hx => absurd hx List.not_mem_nil

theorem merged_recoverFlush (hi : e.immutableMemtable = none) : ∀ x ∈ e.recoverFlush.2, x.Merged := by
  cases hm : e.activeMemtable.isEmpty with
  | true =>
    rw [Engine.recoverFlush_empty hm]
    exact fun x hx => absurd hx List.not_mem_nil
  | false =>
    rw [Engine.recoverFlush_eq hi hm]
    exact List.forall_mem_append.mpr ⟨List.forall_mem_cons.mpr ⟨merged_sst _ _, List.forall_mem_cons.mpr ⟨trivial,
      List.forall_mem_singleton.mpr trivial⟩⟩, merged_maybeCompact⟩

/-- The ids of the tables of L1 and L2 are below the one the engine would go on
with. -/
def Disk.OutputsBelow (d : Disk) : Prop :=
  ∀ f ∈ d.files, ∀ n, f.1 = .l1 n ∨ f.1 = .l2 n → n < (Engine.loadTables d).1.nextSstId

/-- One step of the search for the next id. -/
def nextIdOf (next : ℕ) (t : Table) : ℕ :=
  match t.name with
  | .sst id => if next ≤ id then id + 1 else next
  | _ => next

theorem le_nextIdOf (next : ℕ) (t : Table) : next ≤ nextIdOf next t := by
  unfold nextIdOf
  split
  · split <;> omega
  · exact le_rfl

theorem lt_nextIdOf {next n : ℕ} {t : Table} (hn : t.name = .sst n) : n < nextIdOf next t := by
  unfold nextIdOf
  rw [hn]
  dsimp only
  split <;> omega

theorem foldl_nextIdOf : (ts : List Table) → (next : ℕ) →
    next ≤ ts.foldl nextIdOf next ∧ ∀ t ∈ ts, ∀ n, t.name = .sst n → n < ts.foldl nextIdOf next
  | [], _ => ⟨le_rfl, fun _ ht => absurd ht List.not_mem_nil⟩
  | t :: ts, next => by
    obtain ⟨hle, hlt⟩ := foldl_nextIdOf ts (nextIdOf next t)
    rw [List.foldl_cons]
    exact ⟨le_trans (le_nextIdOf next t) hle,
      List.forall_mem_cons.mpr ⟨fun n hn => lt_of_lt_of_le (lt_nextIdOf hn) hle, hlt⟩⟩

theorem lt_nextIdAfter {ts : List Table} {t : Table} {n : ℕ} (ht : t ∈ ts) (hn : t.name = .sst n) :
    n < nextIdAfter ts :=
  (foldl_nextIdOf ts 0).2 t ht n hn

theorem mem_files_of_read {f : FileName} {t : SSTable} (h : d.read f = some t) : (f, t) ∈ d.files := by
  obtain ⟨l₁, l₂, hl, -⟩ := List.lookup_eq_some_iff.mp h
  rw [hl]
  exact List.mem_append_right _ List.mem_cons_self

theorem mem_scan {p : FileName → Bool} {f : FileName} (h : f ∈ d.scan p) : p f = true := by
  rw [Disk.scan, List.mem_insertionSort] at h
  exact (List.mem_filter.mp h).2

theorem load_names {fs : List FileName} : d.load ((d.load fs).map (·.name)) = d.load fs := by
  have hall : ∀ ts : List Table, (∀ t ∈ ts, d.read t.name = some t.table) → d.load (ts.map (·.name)) = ts := by
    intro ts
    induction ts with
    | nil => exact fun _ => rfl
    | cons t ts ih =>
      intro h
      rw [List.map_cons, Disk.load_cons (h t List.mem_cons_self), ih fun x hx => h x (List.mem_cons_of_mem _ hx)]
  exact hall _ fun t ht => (Disk.mem_load.mp ht).2

/-- The tables of the directory, listed anew. -/
theorem layout_scan (hm : d.manifest = none) (hd : d.Merged) (hb : d.OutputsBelow) :
    Layout (Engine.loadTables d).1 (d.applyAll E (Engine.loadTables d).2) := by
  have hid : (Engine.loadTables d).1.nextSstId =
      nextIdAfter (d.load (d.scan fun f => match f with | .sst _ => true | _ => false)) := by
    unfold Engine.loadTables
    rewrite [hm]
    rfl
  unfold Disk.OutputsBelow at hb
  rw [hid] at hb
  simp only [Engine.loadTables, hm]
  refine ⟨rfl, rfl, ⟨le_rfl, fun f hf => ?_, fun f hf => ?_, fun f hf => ?_⟩, ?_, ?_, ?_⟩
  · obtain ⟨t, ht, rfl⟩ := List.mem_map.mp hf
    obtain ⟨hs, hr⟩ := Disk.mem_load.mp ht
    have hname := mem_scan hs
    cases hn : t.name with
    | sst n => exact ⟨⟨n, lt_nextIdAfter ht hn, rfl⟩, t.table, hn ▸ hr⟩
    | l1 n => rw [hn] at hname; cases hname
    | l2 n => rw [hn] at hname; cases hname
  · obtain ⟨t, ht, rfl⟩ := List.mem_map.mp hf
    obtain ⟨hs, hr⟩ := Disk.mem_load.mp ht
    have hname := mem_scan hs
    have hmem := mem_files_of_read hr
    cases hn : t.name with
    | l1 n =>
      exact ⟨⟨n, hb _ hmem n (.inl hn), rfl⟩, t.table, hn ▸ hr, hd _ hmem ⟨n, .inl hn⟩⟩
    | sst n => rw [hn] at hname; cases hname
    | l2 n => rw [hn] at hname; cases hname
  · obtain ⟨t, ht, rfl⟩ := List.mem_map.mp hf
    obtain ⟨hs, hr⟩ := Disk.mem_load.mp ht
    have hname := mem_scan hs
    have hmem := mem_files_of_read hr
    cases hn : t.name with
    | l2 n =>
      exact ⟨⟨n, hb _ hmem n (.inr hn), rfl⟩, t.table, hn ▸ hr, hd _ hmem ⟨n, .inr hn⟩⟩
    | sst n => rw [hn] at hname; cases hname
    | l1 n => rw [hn] at hname; cases hname
  · exact load_names.symm
  · exact List.Perm.of_eq load_names.symm
  · exact List.Perm.of_eq load_names.symm

end Scan

/-! ### Histories -/

/-- What happens to the process, and the loss of the manifest of a stopped
one. -/
inductive Move
  | event (ev : Event)
  | loseManifest
  deriving DecidableEq, Repr

def Process.move (E : Env) : Process → Move → Process
  | p, .event ev => p.step E ev
  | .stopped d, .loseManifest => .stopped { d with manifest := none }
  | p, .loseManifest => p

/-- The names that are chosen, also by what is interrupted. -/
def Process.choices (E : Env) : Process → Move → List Choice
  | .running e _, .event (.exec op) => e.choices op
  | .running e _, .event (.crash op _) => e.choices op
  | .running e _, .event .close => e.choices .flush
  | .stopped d, .event .construct => Engine.constructChoices E d
  | .stopped d, .event (.crashConstruct _) => Engine.constructChoices E d
  | _, _ => []

/-- A start without a manifest finds no table of L1 or L2 with an id that is
not below those of L0. -/
def Process.StartsBelow : Process → Move → Prop
  | .stopped d, .event .construct => d.manifest = none → d.OutputsBelow
  | .stopped d, .event (.crashConstruct _) => d.manifest = none → d.OutputsBelow
  | _, _ => True

/-- A directory that can be opened. -/
def Disk.Openable (d : Disk) : Prop := d.manifest = none ∨ Stored d

def Process.Kept : Process → Prop
  | .running e d => Layout e d ∧ d.Merged
  | .stopped d => d.Openable ∧ d.Merged

section Histories

variable {E : Env} {d : Disk}

/-- The tables an engine starts with are those its manifest lists. -/
theorem layout_loadTables (h : d.Openable) (hd : d.Merged) (hb : d.manifest = none → d.OutputsBelow) :
    Layout (Engine.loadTables d).1 (d.applyAll E (Engine.loadTables d).2) := by
  rcases h with hm | hs
  · exact layout_scan hm hd (hb hm)
  · exact hs.loadTables.1

theorem merged_loadTables : ∀ x ∈ (Engine.loadTables d).2, x.Merged := by
  unfold Engine.loadTables
  split
  · exact fun x hx => absurd hx List.not_mem_nil
  · exact List.forall_mem_singleton.mpr trivial

/-- Opening a directory, wherever it is cut. -/
theorem layout_construct (h : d.Openable) (hd : d.Merged) (hb : d.manifest = none → d.OutputsBelow) :
    Layout (Engine.construct E d).1 (d.applyAll E (Engine.construct E d).2) ∧
      AtCuts E Disk.Openable d (Engine.construct E d).2 ∧ (∀ x ∈ (Engine.construct E d).2, x.Merged) ∧
      ∀ c ∈ Engine.constructChoices E d, c.New := by
  have hl := layout_loadTables (E := E) h hd hb
  have hr : Layout ((Engine.loadTables d).1.replayWal E d) (d.applyAll E (Engine.loadTables d).2) :=
    hl.writes _ _ rfl fun _ => rfl
  obtain ⟨hl', hc'⟩ := hr.recoverFlush (E := E)
  have hfirst : AtCuts E Disk.Openable d (Engine.loadTables d).2 := by
    have hafter : Disk.Openable (d.applyAll E (Engine.loadTables d).2) := .inr (hl.stored hl.saved fun _ _ => rfl)
    unfold Engine.loadTables at hafter ⊢
    split
    · exact atCuts_nil h
    · rename_i hm
      rw [hm] at hafter
      exact atCuts_cons h (atCuts_nil hafter)
  refine ⟨?_, ?_, ?_, ?_⟩
  · show Layout _ (d.applyAll E ((Engine.loadTables d).2 ++ ((Engine.loadTables d).1.replayWal E d).recoverFlush.2))
    rw [Disk.applyAll_append]
    exact hl'
  · exact hfirst.append fun n => .inr (hc' n)
  · exact List.forall_mem_append.mpr ⟨merged_loadTables, merged_recoverFlush hr.immutable⟩
  · unfold Engine.constructChoices
    dsimp only
    split
    · exact fun c hc => absurd hc List.not_mem_nil
    · exact hr.flushChoices_new

theorem Process.Kept.move {p : Process} (h : p.Kept) {mv : Move} (hb : p.StartsBelow mv) : (p.move E mv).Kept := by
  have htake : ∀ {d : Disk} {w : List Effect} (n : ℕ), d.Merged → (∀ x ∈ w, x.Merged) →
      (d.applyAll E (w.take n)).Merged := fun n hd hw => hd.applyAll fun x hx => hw x (List.mem_of_mem_take hx)
  cases p with
  | running e d =>
    obtain ⟨hl, hd⟩ := h
    cases mv with
    | loseManifest => exact ⟨hl, hd⟩
    | event ev =>
      cases ev with
      | exec op => exact ⟨(hl.exec op).1, hd.applyAll (merged_exec hl.immutable op)⟩
      | close => exact ⟨.inr hl.flushLocked.2.all, hd.applyAll (merged_flushLocked hl.immutable)⟩
      | crash op n => exact ⟨.inr ((hl.exec op).2 n), htake n hd (merged_exec hl.immutable op)⟩
      | construct => exact ⟨hl, hd⟩
      | crashConstruct n => exact ⟨hl, hd⟩
  | stopped d =>
    obtain ⟨ho, hd⟩ := h
    cases mv with
    | loseManifest => exact ⟨.inl rfl, hd⟩
    | event ev =>
      cases ev with
      | construct =>
        obtain ⟨hl, -, hmerged, -⟩ := layout_construct (E := E) ho hd hb
        exact ⟨hl, hd.applyAll hmerged⟩
      | crashConstruct n =>
        obtain ⟨-, hcuts, hmerged, -⟩ := layout_construct (E := E) ho hd hb
        exact ⟨hcuts n, htake n hd hmerged⟩
      | exec op => exact ⟨ho, hd⟩
      | close => exact ⟨ho, hd⟩
      | crash op n => exact ⟨ho, hd⟩

theorem Process.Kept.choices_new {p : Process} (h : p.Kept) {mv : Move} (hb : p.StartsBelow mv) :
    ∀ c ∈ p.choices E mv, c.New := by
  have hnone : ∀ c : Choice, c ∈ ([] : List Choice) → c.New := fun c hc => absurd hc List.not_mem_nil
  cases p with
  | running e d =>
    cases mv with
    | loseManifest => exact hnone
    | event ev =>
      cases ev with
      | exec op => exact h.1.choices_new op
      | close => exact h.1.choices_new .flush
      | crash op n => exact h.1.choices_new op
      | construct => exact hnone
      | crashConstruct n => exact hnone
  | stopped d =>
    cases mv with
    | loseManifest => exact hnone
    | event ev =>
      cases ev with
      | construct => exact (layout_construct h.1 h.2 hb).2.2.2
      | crashConstruct n => exact (layout_construct h.1 h.2 hb).2.2.2
      | exec op => exact hnone
      | close => exact hnone
      | crash op n => exact hnone

/-- **No new table takes the name of a listed one**, but for those that the
compaction replaces, in every history whose starts without a manifest find the
ids of L1 and L2 below those of L0. -/
theorem names_new (E : Env) (moves : List Move) (h : Along (Process.move E) Process.StartsBelow Process.fresh moves) :
    Along (Process.move E) (fun p mv => ∀ c ∈ p.choices E mv, c.New) Process.fresh moves :=
  Run.Along.of_inv (I := Process.Kept) (fun _ _ hk hb => hk.move hb) (fun _ _ hk hb => hk.choices_new hb)
    ⟨.inl rfl, fun _ hf => absurd hf List.not_mem_nil⟩ h

end Histories

instance (d : Disk) : Decidable d.OutputsBelow :=
  have (f : FileName) : Decidable (∀ n, f = .l1 n ∨ f = .l2 n → n < (Engine.loadTables d).1.nextSstId) :=
    match f with
    | .sst _ => .isTrue fun _ h => by rcases h with h | h <;> cases h
    | .l1 n | .l2 n => decidable_of_iff (n < (Engine.loadTables d).1.nextSstId) (by simp)
  inferInstanceAs (Decidable (∀ f ∈ d.files, ∀ n, f.1 = .l1 n ∨ f.1 = .l2 n → n < (Engine.loadTables d).1.nextSstId))

instance : ∀ (p : Process) (mv : Move), Decidable (p.StartsBelow mv)
  | .stopped d, .event .construct => inferInstanceAs (Decidable (d.manifest = none → d.OutputsBelow))
  | .stopped d, .event (.crashConstruct _) => inferInstanceAs (Decidable (d.manifest = none → d.OutputsBelow))
  | .stopped _, .event (.exec _) | .stopped _, .event .close | .stopped _, .event (.crash _ _)
  | .stopped _, .loseManifest | .running _ _, _ => .isTrue trivial

instance (c : Choice) : Decidable c.New := inferInstanceAs (Decidable (∀ f ∈ c.kept, c.name.render ≠ f.render))

/-- Two tables, their compaction, and `evs` before a restart that finds no
manifest; then two tables again. -/
def restarted (evs : List Move) : List Move :=
  let flushed := fun k => [.event (.exec (.putRaw k [1] false ⟨0, 0⟩)), .event (.exec .flush)]
  [.event .construct] ++ flushed 1 ++ flushed 2 ++ [.event (.exec .forceCompact)] ++ evs ++
    [.event .close, .loseManifest, .event .construct] ++ flushed 1 ++ flushed 2

/-- With a third table the id of L0 is above that of L1. -/
theorem names_new_restarted :
    Along (Process.move (Env.ofCrc crc32c)) (fun p mv => ∀ c ∈ p.choices (Env.ofCrc crc32c) mv, c.New) Process.fresh
      (restarted [.event (.exec (.putRaw 3 [1] false ⟨0, 0⟩)), .event (.exec .flush)] ++
        [.event (.exec .forceCompact)]) :=
  names_new (Env.ofCrc crc32c) _ (by decide)

/-- Without it the second compaction takes the name of the table the first one
wrote, which is still listed and not one of those it replaces. -/
theorem names_taken :
    ¬ Along (Process.move (Env.ofCrc crc32c)) (fun p mv => ∀ c ∈ p.choices (Env.ofCrc crc32c) mv, c.New) Process.fresh
      (restarted [] ++ [.event (.exec .forceCompact)]) := by
  decide

end Lsm
end Amind
