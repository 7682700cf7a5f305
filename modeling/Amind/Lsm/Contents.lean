/-
# What table files hold

The entries of a table file are those a walk over it delivers (`contents`), so
that an engine over files has an `Engine` and a directory of files a `Disk`.
A reader is `Sound` if lookups and cursors tell the same of the table.

`TableEnv.Fits` is the condition under which a table is read back from the file
that is written of it: no block is longer than 64 MiB, which a reader refuses,
and the sizes in the footer fit. `Fits.written` draws on the round trip of
table files; `probe_contents` is what a lookup in sound tables finds.
-/
import Amind.Lib.Hiding
import Amind.Lsm.Compaction
import Amind.Lsm.LSMEngine

namespace Amind
namespace Lsm

open Wal (Env)

/-! ### Contents -/

instance decidableAscending (l : List (Key × Bytes)) : Decidable (Keyed.Ascending l) := by
  unfold Keyed.Ascending
  infer_instance

/-- The table of the entries a walk delivers. -/
def SSTableReader.contents (lz : Lz4) (r : SSTableReader) : SSTable :=
  if h : Keyed.Ascending (r.forEach lz).1 then ⟨(r.forEach lz).1, h⟩ else ⟨[], List.Pairwise.nil⟩

def OpenTable.contents (lz : Lz4) (t : OpenTable) : Table := ⟨t.name, t.reader.contents lz⟩

def LSMEngine.contents (lz : Lz4) (e : LSMEngine) : Engine where
  activeMemtable := e.activeMemtable
  immutableMemtable := e.immutableMemtable
  l0Tables := e.l0Tables.map (·.contents lz)
  l1Tables := e.l1Tables.map (·.contents lz)
  l2Tables := e.l2Tables.map (·.contents lz)
  nextSstId := e.nextSstId
  manifest := e.manifest
  sequenceNumber := e.sequenceNumber

/-- The table of a file, if the file loads. -/
def readFile (T : TableEnv) (f : FileName × Bytes) : Option (FileName × SSTable) :=
  (SSTableReader.load (T.path f.1) f.2).toOption.map fun r => (f.1, r.contents T.lz)

def Directory.contents (T : TableEnv) (d : Directory) : Disk :=
  ⟨d.manifest, d.files.filterMap (readFile T), d.wal⟩

def LSMProcess.contents (T : TableEnv) : LSMProcess → Process
  | .running e d => .running (e.contents T.lz) (d.contents T)
  | .stopped d => .stopped (d.contents T)

@[simp] theorem contents_running (T : TableEnv) (e : LSMEngine) (d : Directory) :
    (LSMProcess.running e d).contents T = .running (e.contents T.lz) (d.contents T) := rfl

@[simp] theorem contents_stopped (T : TableEnv) (d : Directory) :
    (LSMProcess.stopped d).contents T = .stopped (d.contents T) := rfl

theorem contents_fresh (T : TableEnv) : LSMProcess.fresh.contents T = Process.fresh := rfl

/-! ### Sound readers -/

/-- Lookups and cursors agree with what a walk delivers. -/
structure SSTableReader.Sound (T : TableEnv) (r : SSTableReader) : Prop where
  get : ∀ k, r.get T.lz T.hash k = .ok ((r.contents T.lz).get k)
  walked : (r.forEach T.lz).1 = (r.contents T.lz).entries
  yields : Yields T.lz (r.contents T.lz).entries (openCursor T.lz r)
  counted : r.footer.entryCount = (r.contents T.lz).entries.length % 2 ^ 32

/-- All tables of the engine are sound. -/
structure LSMEngine.Sound (T : TableEnv) (e : LSMEngine) : Prop where
  l0 : ∀ t ∈ e.l0Tables, t.reader.Sound T
  l1 : ∀ t ∈ e.l1Tables, t.reader.Sound T
  l2 : ∀ t ∈ e.l2Tables, t.reader.Sound T

/-- A directory has one file of a name, and the files that load are sound. -/
structure Directory.Sound (T : TableEnv) (d : Directory) : Prop where
  names : (d.files.map (·.1)).Nodup
  files : ∀ f ∈ d.files, ∀ r, SSTableReader.load (T.path f.1) f.2 = .ok r → r.Sound T

def LSMProcess.Sound (T : TableEnv) : LSMProcess → Prop
  | .running e d => e.Sound T ∧ d.Sound T
  | .stopped d => d.Sound T

theorem LSMProcess.sound_fresh (T : TableEnv) : LSMProcess.fresh.Sound T :=
  ⟨List.nodup_nil, fun _ hf => absurd hf List.not_mem_nil⟩

/-! ### Tables that fit -/

/-- A reader accepts the blocks of the table, and the sizes in the footer fit,
for the number of entries the writer expected. -/
def TableEnv.Fits (T : TableEnv) (expected : ℕ) (t : SSTable) : Prop :=
  Readable (dataBlocks t.entries) ∧ SizesFit T.hash (UInt64.ofNat expected) t.entries

section Written

variable {T : TableEnv} {t : SSTable} {expected : ℕ}

theorem contents_of_forEach {lz : Lz4} {r : SSTableReader} (h : r.forEach lz = (t.entries, .done)) :
    r.contents lz = t := by
  unfold SSTableReader.contents
  rw [h, dif_pos t.sorted]

/-- **A table that fits is written, loaded and read back.** -/
theorem TableEnv.Fits.written (hlz : T.lz.Lawful) (h : T.Fits expected t) (path : String) :
    ∃ data r, SSTableWriter.write T.lz T.hash (UInt64.ofNat expected) t.entries = .ok data ∧
      SSTableReader.load path data = .ok r ∧ r.contents T.lz = t ∧ r.Sound T := by
  obtain ⟨hread, hfit⟩ := h
  have htrip : RoundTrips T.lz T.hash (UInt64.ofNat expected) path t.entries :=
    roundTrips_of_sizesFit hlz t.sorted hread hfit
  obtain ⟨data, r, hwrite, hload, hget, -, hwalk, -⟩ := htrip
  have hcontents := contents_of_forEach hwalk
  obtain ⟨hfile, hlen⟩ := write_of_sizesFit hlz t.sorted hread hfit
  obtain rfl : tableFile T.lz T.hash (UInt64.ofNat expected) t.entries = data :=
    Except.ok.inj (hfile.symm.trans hwrite)
  have hindex : 20 * (dataBlocks t.entries).length < 2 ^ 32 := hfit.1
  have hall : (dataBlocks t.entries).take (20 * (dataBlocks t.entries).length % 2 ^ 32 / 20) = dataBlocks t.entries :=
    List.take_of_length_le (by rw [Nat.mod_eq_of_lt hindex]; omega)
  have hyields := (holds_load hlz t.sorted hread hlen hload).2.yields
  rw [hall, flatten_dataBlocks] at hyields
  have hfooter : r.footer = footerOf T.lz (UInt64.ofNat expected) t.entries := by
    rw [load_tableFile hlen] at hload
    split at hload
    · cases hload
    · rw [← Except.ok.inj hload]
  refine ⟨_, r, hwrite, hload, hcontents, ?_, ?_, ?_, ?_⟩
  · rw [hcontents]
    exact hget
  · rw [hcontents, hwalk]
  · rw [hcontents]
    exact hyields
  · rw [hcontents, hfooter]
    rfl

/-- The longest value that fits in whatever block it comes to: a block gets its
last entry below 4096 bytes. -/
def MAX_FITTING_VALUE : ℕ := BlockReader.MAX_UNCOMPRESSED - (BlockBuilder.DATA_BLOCK_SIZE - 1) - 12

/-- The values are below 64 MiB by more than a block, and the entries fewer than
2 ^ 27. -/
def SSTable.Small (expected : ℕ) (t : SSTable) : Prop :=
  expected < 2 ^ 27 ∧ t.entries.length < 2 ^ 27 ∧ ∀ e ∈ t.entries, e.2.length ≤ MAX_FITTING_VALUE

instance (expected : ℕ) (t : SSTable) : Decidable (t.Small expected) := by
  unfold SSTable.Small
  infer_instance

theorem readable_cutBlocks : ∀ (entries current : List (Key × Bytes)),
    (∀ e ∈ entries, e.2.length ≤ MAX_FITTING_VALUE) → (blockBytes current).length < BlockBuilder.DATA_BLOCK_SIZE →
    Readable (cutBlocks current entries)
  | [], current, _, hcurrent => by
    unfold cutBlocks
    split
    · exact fun b hb => absurd hb List.not_mem_nil
    · intro b hb
      rw [List.mem_singleton.mp hb]
      exact hcurrent.le.trans (by decide)
  | e :: entries, current, hall, hcurrent => by
    have hrest : ∀ x ∈ entries, x.2.length ≤ MAX_FITTING_VALUE := fun x hx => hall x (List.mem_cons_of_mem _ hx)
    unfold cutBlocks
    split
    · intro b hb
      rcases List.mem_cons.mp hb with rfl | hb
      · have hvalue := hall e List.mem_cons_self
        have hmax : MAX_FITTING_VALUE = 67104757 := rfl
        have hlimit : BlockReader.MAX_UNCOMPRESSED = 67108864 := rfl
        have hsize : BlockBuilder.DATA_BLOCK_SIZE = 4096 := rfl
        rw [length_blockBytes] at hcurrent ⊢
        rw [List.flatMap_append, List.flatMap_singleton, List.length_append, length_entryBytes]
        omega
      · exact readable_cutBlocks entries [] hrest (by decide) b hb
    · exact readable_cutBlocks entries _ hrest (Nat.not_le.mp ‹_›)

theorem length_cutBlocks : ∀ entries current : List (Key × Bytes),
    (cutBlocks current entries).length ≤ entries.length + 1
  | [], current => by
    unfold cutBlocks
    split <;> simp
  | e :: entries, current => by
    have h := length_cutBlocks entries
    unfold cutBlocks
    split
    · have := h []
      simp only [List.length_cons]
      omega
    · have := h (current ++ [e])
      simp only [List.length_cons]
      omega

/-- Small tables fit. -/
theorem SSTable.Small.fits (h : t.Small expected) : T.Fits expected t := by
  obtain ⟨hexpected, hlength, hvalues⟩ := h
  have hblocks := length_cutBlocks t.entries []
  have hbits : BloomFilter.bitsFor (UInt64.ofNat expected) ≤ 10 * 2 ^ 27 + 64 ∧
      64 ≤ BloomFilter.bitsFor (UInt64.ofNat expected) := by
    have hten : BloomFilter.BLOOM_BITS_PER_KEY = 10 := rfl
    have hnat : (UInt64.ofNat expected).toNat = expected := UInt64.toNat_ofNat_of_lt' (by show expected < 2 ^ 64; omega)
    have hmod : expected * 10 % 2 ^ 64 = expected * 10 := Nat.mod_eq_of_lt (by omega)
    have hmod' : (max 64 (expected * 10) + 7) % 2 ^ 64 = max 64 (expected * 10) + 7 := Nat.mod_eq_of_lt (by omega)
    unfold BloomFilter.bitsFor
    rw [hnat, hten, hmod, hmod']
    omega
  have hsize : filterSize (UInt64.ofNat expected) = 4 + BloomFilter.bitsFor (UInt64.ofNat expected) / 8 := rfl
  have hindex : (dataBlocks t.entries).length = (cutBlocks [] t.entries).length := rfl
  refine ⟨readable_cutBlocks _ _ hvalues (by decide), ?_, ?_, .inl ?_⟩ <;> omega

end Written

/-! ### Lookups -/

section Probe

variable {T : TableEnv}

theorem LSMEngine.probe_contents {ts : List OpenTable} (h : ∀ t ∈ ts, t.reader.Sound T) (k : Key) :
    LSMEngine.probe T ts k = .ok (Lsm.probe (ts.map (·.contents T.lz)) k) := by
  induction ts with
  | nil => rfl
  | cons t ts ih =>
    have ht := (h t List.mem_cons_self).get k
    have hts := ih fun t' ht' => h t' (List.mem_cons_of_mem _ ht')
    rw [List.map_cons, probe_cons, LSMEngine.probe]
    show _ = Except.ok (((t.reader.contents T.lz).get k).or _)
    cases hmay : t.reader.bloomFilter.mayContain T.hash k with
    | error x =>
      rw [SSTableReader.get, hmay, error_bind] at ht
      cases ht
    | ok may =>
      cases may with
      | false =>
        -- the filter spares a lookup that finds nothing
        rw [SSTableReader.get, hmay, ok_bind, if_pos rfl] at ht
        rw [ok_bind, if_pos rfl, ← Except.ok.inj ht, Option.none_or]
        exact hts
      | true =>
        rw [ok_bind, if_neg (by decide), ht, ok_bind]
        cases (t.reader.contents T.lz).get k with
        | none => exact hts
        | some v => rfl

theorem LSMEngine.Sound.get {e : LSMEngine} (h : e.Sound T) (k : Key) :
    e.get T k = .ok ((e.contents T.lz).get k) := by
  have htables : e.tableHit T k = .ok ((e.contents T.lz).tableHit k) := by
    unfold LSMEngine.tableHit Engine.tableHit
    rw [probe_contents h.l0, ok_bind, probe_contents h.l1, ok_bind, probe_contents h.l2]
    show _ = Except.ok ((Lsm.probe (e.l0Tables.map _) k).or ((Lsm.probe (e.l1Tables.map _) k).or _))
    cases Lsm.probe (e.l0Tables.map (·.contents T.lz)) k with
    | some v => rfl
    | none =>
      cases Lsm.probe (e.l1Tables.map (·.contents T.lz)) k with
      | some v => rfl
      | none => rfl
  unfold LSMEngine.get Engine.get
  rw [htables]
  show _ = Except.ok (Engine.live ((e.memHit k).or _))
  cases e.memHit k with
  | some v => rfl
  | none => rfl

end Probe

/-! ### The files of a directory -/

section Files

variable {T : TableEnv} {d : Directory}

theorem readFile_name {f : FileName × Bytes} {x : FileName × SSTable} (h : readFile T f = some x) : x.1 = f.1 := by
  obtain ⟨r, -, rfl⟩ := Option.map_eq_some_iff.mp h
  rfl

theorem lookup_readFile {f : FileName} : ∀ {fs : List (FileName × Bytes)}, (fs.map (·.1)).Nodup →
    (fs.filterMap (readFile T)).lookup f =
      (fs.lookup f).bind fun data => (SSTableReader.load (T.path f) data).toOption.map (·.contents T.lz)
  | [], _ => rfl
  | (g, data) :: fs, hnodup => by
    obtain ⟨hnot, hnodup'⟩ := List.nodup_cons.mp hnodup
    have ih := lookup_readFile (f := f) hnodup'
    by_cases hfg : f = g
    · subst hfg
      have hrest : fs.lookup f = none := by
        refine List.lookup_eq_none_iff.mpr fun x hx => ?_
        have hne : f ≠ x.1 := fun h => hnot (h ▸ List.mem_map_of_mem (f := (·.1)) hx)
        simpa using hne
      rw [List.lookup_cons_self, Option.bind_some]
      cases hl : SSTableReader.load (T.path f) data with
      | error x =>
        have hnone : readFile T (f, data) = none := by rw [readFile, hl]; rfl
        rw [List.filterMap_cons_none hnone, ih, hrest]
        rfl
      | ok r =>
        have hsome : readFile T (f, data) = some (f, r.contents T.lz) := by rw [readFile, hl]; rfl
        rw [List.filterMap_cons_some hsome, List.lookup_cons_self]
        rfl
    · have hkeep : ((g, data) :: fs).lookup f = fs.lookup f := by
        rw [List.lookup_cons, beq_eq_false_iff_ne.mpr hfg]
      rw [hkeep, ← ih]
      cases hr : readFile T (g, data) with
      | none => rw [List.filterMap_cons_none hr]
      | some x =>
        have hne : (f == x.1) = false := by
          rw [readFile_name hr]
          exact beq_eq_false_iff_ne.mpr hfg
        rw [List.filterMap_cons_some hr, List.lookup_cons, hne]

theorem Directory.Sound.openTable (h : d.Sound T) (f : FileName) :
    (d.openTable T f).map (·.contents T.lz) = ((d.contents T).read f).map fun t => ⟨f, t⟩ := by
  unfold Directory.openTable Disk.read Directory.contents
  rw [lookup_readFile h.names]
  cases d.files.lookup f with
  | none => rfl
  | some data =>
    rw [Option.bind_some, Option.bind_some]
    cases SSTableReader.load (T.path f) data <;> rfl

theorem Directory.Sound.load (h : d.Sound T) (fs : List FileName) :
    (d.load T fs).map (·.contents T.lz) = (d.contents T).load fs := by
  unfold Directory.load Disk.load
  rw [List.map_filterMap]
  exact List.filterMap_congr fun f _ => h.openTable f

theorem mem_of_lookup {f : FileName} {data : Bytes} {fs : List (FileName × Bytes)} (h : fs.lookup f = some data) :
    (f, data) ∈ fs := by
  obtain ⟨l₁, l₂, rfl, -⟩ := List.lookup_eq_some_iff.mp h
  exact List.mem_append_right _ List.mem_cons_self

theorem lookup_of_mem {fs : List (FileName × Bytes)} (hnodup : (fs.map (·.1)).Nodup) {f : FileName × Bytes}
    (hf : f ∈ fs) : fs.lookup f.1 = some f.2 := by
  obtain ⟨l₁, l₂, rfl⟩ := List.append_of_mem hf
  refine List.lookup_eq_some_iff.mpr ⟨l₁, l₂, rfl, fun x hx => ?_⟩
  rw [List.map_append, List.map_cons] at hnodup
  have hne : f.1 ≠ x.1 := fun heq =>
    List.disjoint_of_nodup_append hnodup (List.mem_map_of_mem hx) (heq ▸ List.mem_cons_self)
  simpa using hne

theorem Directory.Sound.sound_load (h : d.Sound T) {fs : List FileName} : ∀ t ∈ d.load T fs, t.reader.Sound T := by
  intro t ht
  obtain ⟨f, -, hf⟩ := List.mem_filterMap.mp ht
  obtain ⟨data, hlookup, hopen⟩ := Option.bind_eq_some_iff.mp hf
  obtain ⟨r, hr, rfl⟩ := Option.map_eq_some_iff.mp hopen
  refine h.files _ (mem_of_lookup hlookup) r ?_
  cases hl : SSTableReader.load (T.path f) data with
  | error x =>
    rw [hl] at hr
    cases hr
  | ok r' =>
    rw [hl] at hr
    rw [show r' = r from Option.some.inj hr]

/-- The names in the contents are those of the files that load. -/
theorem Directory.Sound.names_contents (h : d.Sound T) :
    (d.contents T).files.map (·.1) = (d.files.map (·.1)).filter fun f => ((d.contents T).read f).isSome := by
  -- over any of the directory's files
  have hof : ∀ fs : List (FileName × Bytes), (∀ f ∈ fs, d.files.lookup f.1 = some f.2) →
      (fs.filterMap (readFile T)).map (·.1) = (fs.map (·.1)).filter fun f => ((d.contents T).read f).isSome := by
    intro fs hall
    induction fs with
    | nil => rfl
    | cons f fs ih =>
      have ih' := ih fun g hg => hall g (List.mem_cons_of_mem _ hg)
      have hread : (d.contents T).read f.1 =
          (SSTableReader.load (T.path f.1) f.2).toOption.map (·.contents T.lz) := by
        unfold Disk.read Directory.contents
        rw [lookup_readFile h.names, hall f List.mem_cons_self, Option.bind_some]
      cases hl : SSTableReader.load (T.path f.1) f.2 with
      | error x =>
        have hnone : readFile T f = none := by rw [readFile, hl]; rfl
        have hno : ¬ ((d.contents T).read f.1).isSome = true := by rw [hread, hl]; exact Bool.false_ne_true
        rw [List.filterMap_cons_none hnone, ih', List.map_cons, List.filter_cons, if_neg hno]
      | ok r =>
        have hsome : readFile T f = some (f.1, r.contents T.lz) := by rw [readFile, hl]; rfl
        have hyes : ((d.contents T).read f.1).isSome = true := by rw [hread, hl]; rfl
        rw [List.filterMap_cons_some hsome, List.map_cons, ih', List.map_cons, List.filter_cons, if_pos hyes]
  exact hof d.files fun f hf => lookup_of_mem h.names hf

theorem Directory.Sound.scan (h : d.Sound T) (p : FileName → Bool) :
    (d.contents T).scan p = (d.scan p).filter fun f => ((d.contents T).read f).isSome := by
  have htotal : Std.Total fun a b : FileName => b.render ≤ a.render := ⟨fun a b => String.le_total _ _⟩
  have htrans : IsTrans FileName fun a b => b.render ≤ a.render := ⟨fun a b c hab hbc => String.le_trans hbc hab⟩
  unfold Disk.scan Directory.scan
  rw [Hiding.filter_insertionSort, List.filter_filter, h.names_contents, List.filter_filter]
  simp only [Bool.and_comm]

/-- Of the names a scan finds, those of files that load are what it finds in
the contents. -/
theorem Directory.Sound.load_scan (h : d.Sound T) (p : FileName → Bool) :
    (d.load T (d.scan p)).map (·.contents T.lz) = (d.contents T).load ((d.contents T).scan p) := by
  rw [h.load, h.scan]
  unfold Disk.load
  rw [List.filterMap_filter]
  refine List.filterMap_congr fun f _ => ?_
  show _ = if ((d.contents T).read f).isSome = true then _ else none
  cases (d.contents T).read f <;> rfl

end Files

end Lsm
end Amind
