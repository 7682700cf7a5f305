/-
# The file of the cold tier

The tier is saved to one file, a header and its entries, and loaded from it. A
tier without entries is not saved at all: the file stays what it was. So the
vectors of the last save come back once all of them have been removed.

`reopen_iff` says that this is the only way: closing a tier and loading a new
one from the file gives the same entries if and only if there is an entry or no
file.
-/
import Amind.Core.Crc32
import Amind.Lib.ByteReader
import Amind.Lib.Run
import Amind.Vector.ColdTier

namespace Amind
namespace Vector

open Amind.Core LittleEndian ByteReader

/-- The 32 bits of a float. -/
structure FloatBits (F : Type) where
  toBits : F → UInt32
  ofBits : UInt32 → F
  ofBits_toBits : ∀ x, ofBits (toBits x) = x

namespace FloatBits

variable {F : Type} (bits : FloatBits F)

/-- The bytes of a vector in memory. -/
def encode (v : List F) : List UInt8 := v.flatMap fun x => toLE 4 (bits.toBits x).toNat

/-- Read a vector of `n` floats. -/
def vector (n : ℕ) : Reader (List F) := times ((fun b => bits.ofBits (UInt32.ofNat b)) <$> number 4) n

theorem reads_vector {v : List F} {n : ℕ} (h : v.length = n) : Reads (bits.vector n) (bits.encode v) v := by
  subst h
  refine Reads.times fun x _ => ?_
  have hlt : (bits.toBits x).toNat < 256 ^ 4 := (bits.toBits x).toNat_lt
  have hr := (reads_number hlt).map (f := fun b => bits.ofBits (UInt32.ofNat b))
  rwa [UInt32.ofNat_toNat, bits.ofBits_toBits] at hr

end FloatBits

namespace ColdTierIndex

def coldMagic : ℕ := 0x434F4C44

def coldVersion : ℕ := 1

variable {F : Type} (bits : FloatBits F) (t : ColdTierIndex F)

/-- An entry in the file: as many floats as the tier's dimension says. -/
def entryBytes (e : ColdEntry F) : List UInt8 := toLE 8 e.id.toNat ++ bits.encode (e.vector.take t.dimension)

/-- The file of the tier's entries. -/
def fileBytes : List UInt8 :=
  let body := t.entries.flatMap (t.entryBytes bits)
  pack [(4, coldMagic), (4, coldVersion), (4, t.dimension), (4, t.entries.length)] ++ (body ++
    toLE 4 (crc32 body).toNat)

/-- The file once the tier is saved. -/
def save (file : Option (List UInt8)) : Option (List UInt8) :=
  if t.entries.isEmpty then file else some (t.fileBytes bits)

structure Header where
  magic : ℕ
  version : ℕ
  dim : ℕ
  count : ℕ

def header : Reader Header := do
  let magic ← number 4
  let version ← number 4
  let dim ← number 4
  let count ← number 4
  pure ⟨magic, version, dim, count⟩

def entry (dimension : ℕ) : Reader (ColdEntry F) := do
  let id ← number 8
  let vector ← bits.vector dimension
  pure ⟨UInt64.ofNat id, vector⟩

/-- Take over an entry that has been read. -/
def push (t : ColdTierIndex F) (e : ColdEntry F) : ColdTierIndex F :=
  { t with idToIndex := t.idToIndex.insert e.id t.entries.length, entries := t.entries ++ [e] }

/-- The tier without its entries. -/
def cleared (t : ColdTierIndex F) : ColdTierIndex F := ⟨t.dimension, t.computeDistance, [], ∅⟩

/-- Load the entries of the file, up to where it is cut. The checksum is not
looked at. -/
def load (file : Option (List UInt8)) : Bool × ColdTierIndex F :=
  match file.bind header with
  | none => (false, t)
  | some (h, rest) =>
    if h.magic ≠ coldMagic ∨ h.version ≠ coldVersion then (false, t)
    else if h.dim ≠ t.dimension then (false, t)
    else (true, (upTo (entry bits t.dimension) h.count rest).foldl push t.cleared)

/-! ### A file that is loaded -/

/-- What fits the fields of the file: 32 bits for the dimension and for the
number of entries. -/
structure Fits : Prop where
  dimension : t.dimension < 2 ^ 32
  count : t.entries.length < 2 ^ 32
  vectors : ∀ e ∈ t.entries, e.vector.length = t.dimension

variable {bits t}

theorem reads_header {dim count : ℕ} (hd : dim < 2 ^ 32) (hc : count < 2 ^ 32) :
    Reads header (pack [(4, coldMagic), (4, coldVersion), (4, dim), (4, count)]) ⟨coldMagic, coldVersion, dim,
      count⟩ := by
  have hmagic : Reads (number 4) (toLE 4 coldMagic) coldMagic := reads_number (by decide)
  have hversion : Reads (number 4) (toLE 4 coldVersion) coldVersion := reads_number (by decide)
  have hdim : Reads (number 4) (toLE 4 dim) dim := reads_number (lt_of_lt_of_le hd (by decide))
  have hcount : Reads (number 4) (toLE 4 count) count := reads_number (lt_of_lt_of_le hc (by decide))
  have hpack : pack [(4, coldMagic), (4, coldVersion), (4, dim), (4, count)] =
      toLE 4 coldMagic ++ (toLE 4 coldVersion ++ (toLE 4 dim ++ (toLE 4 count ++ []))) := by simp [pack]
  rw [hpack]
  exact hmagic.bind (hversion.bind (hdim.bind (hcount.bind (Reads.pure _))))

theorem reads_entry {e : ColdEntry F} (h : e.vector.length = t.dimension) :
    Reads (entry bits t.dimension) (t.entryBytes bits e) e := by
  have hid : Reads (number 8) (toLE 8 e.id.toNat) e.id.toNat := reads_number e.id.toNat_lt
  have hvec : Reads (bits.vector t.dimension) (bits.encode (e.vector.take t.dimension)) e.vector := by
    rw [← h, List.take_length]
    exact bits.reads_vector rfl
  have hr : Reads (entry bits t.dimension) (toLE 8 e.id.toNat ++ (bits.encode (e.vector.take t.dimension) ++ []))
      ⟨UInt64.ofNat e.id.toNat, e.vector⟩ := hid.bind (hvec.bind (Reads.pure _))
  rwa [List.append_nil, UInt64.ofNat_toNat] at hr

theorem foldl_push_entries : ∀ (es : List (ColdEntry F)) (t : ColdTierIndex F),
    (es.foldl push t).entries = t.entries ++ es
  | [], t => (List.append_nil _).symm
  | e :: es, t => by
    rw [List.foldl_cons, foldl_push_entries es, push, List.append_assoc, List.singleton_append]

theorem foldl_push_dimension : ∀ (es : List (ColdEntry F)) (t : ColdTierIndex F),
    (es.foldl push t).dimension = t.dimension
  | [], _ => rfl
  | _ :: es, _ => foldl_push_dimension es _

/-- Entries of new ids, taken over one after the other. -/
theorem consistent_foldl_push : ∀ (es : List (ColdEntry F)) (t : ColdTierIndex F), t.Consistent →
    (es.map (·.id)).Nodup → (∀ e ∈ es, t.contains e.id = false) → (es.foldl push t).Consistent
  | [], _, h, _, _ => h
  | e :: es, t, h, hnodup, hnew => by
    have hlookup : t.idToIndex.lookup e.id = none :=
      Option.isNone_iff_eq_none.mp (Option.isSome_eq_false_iff.mp (hnew e List.mem_cons_self))
    have hpush : push t e = t.append e.id e.vector := by
      unfold push append
      rw [hlookup]
    rw [List.map_cons, List.nodup_cons] at hnodup
    rw [List.foldl_cons, hpush]
    refine consistent_foldl_push es _ (h.append _ _) hnodup.2 fun e' he' => ?_
    rw [Bool.eq_false_iff, Ne, h.contains_append, not_or]
    refine ⟨fun hid => hnodup.1 (List.mem_map.mpr ⟨e', he', hid⟩), ?_⟩
    rw [hnew e' (List.mem_cons_of_mem _ he')]
    exact Bool.false_ne_true

/-- **A file that a tier was saved to is loaded with the same entries.** -/
theorem load_fileBytes {t t' : ColdTierIndex F} (hfits : t.Fits) (hdim : t'.dimension = t.dimension) :
    t'.load bits (some (t.fileBytes bits)) = (true, t.entries.foldl push t'.cleared) := by
  have hread := reads_header hfits.dimension hfits.count
  have hentries : upTo (entry bits t.dimension) t.entries.length (t.entries.flatMap (t.entryBytes bits) ++
      toLE 4 (crc32 (t.entries.flatMap (t.entryBytes bits))).toNat) = t.entries := by
    have : upTo (entry bits t.dimension) (t.entries.length + 0) (t.entries.flatMap (t.entryBytes bits) ++
        toLE 4 (crc32 (t.entries.flatMap (t.entryBytes bits))).toNat) = _ :=
      upTo_append fun e he => reads_entry (hfits.vectors e he)
    simpa [upTo] using this
  unfold load fileBytes
  rw [Option.bind_some, hread]
  dsimp only
  rw [if_neg (by simp), hdim, if_neg (by simp), hentries]

end ColdTierIndex

/-! ### Histories -/

/-- A tier and the file at its path. -/
structure ColdStore (F : Type) where
  file : Option (List UInt8)
  tier : ColdTierIndex F

inductive ColdOp (F : Type)
  | append (id : UInt64) (vector : List F)
  | remove (id : UInt64)
  | save
  | reopen

namespace ColdStore

variable {F : Type} (bits : FloatBits F)

/-- A new tier, and no file. -/
def fresh (dimension : ℕ) (computeDistance : List F → List F → F) : ColdStore F :=
  ⟨none, { dimension := dimension, computeDistance := computeDistance }⟩

/-- The tier is closed, which saves it, and a new one is loaded from the file. -/
def reopen (s : ColdStore F) : ColdStore F :=
  let file := s.tier.save bits s.file
  ⟨file, (ColdTierIndex.load bits s.tier.cleared file).2⟩

def step (s : ColdStore F) : ColdOp F → ColdStore F
  | .append id vector => { s with tier := s.tier.append id vector }
  | .remove id => { s with tier := s.tier.remove id }
  | .save => { s with file := s.tier.save bits s.file }
  | .reopen => s.reopen bits

/-- The vectors appended are of the tier's dimension, and there are not too many
entries to save. -/
def Admits (s : ColdStore F) (op : ColdOp F) : Prop :=
  s.tier.entries.length < 2 ^ 32 ∧ ∀ id v, op = .append id v → v.length = s.tier.dimension

/-- What the file and the tier are all along: the file is one of a tier that has
entries. -/
structure Kept (dim : ℕ) (s : ColdStore F) : Prop where
  consistent : s.tier.Consistent
  dimension : s.tier.dimension = dim
  vectors : ∀ e ∈ s.tier.entries, e.vector.length = dim
  file : ∀ f, s.file = some f → ∃ t : ColdTierIndex F, t.entries ≠ [] ∧ t.Consistent ∧ t.Fits ∧ t.dimension = dim ∧
    f = t.fileBytes bits

variable {bits} {dim : ℕ} {s : ColdStore F}

theorem Kept.fits (h : s.Kept bits dim) (hdim : dim < 2 ^ 32) (hcount : s.tier.entries.length < 2 ^ 32) : s.tier.Fits :=
  ⟨h.dimension ▸ hdim, hcount, fun e he => (h.vectors e he).trans h.dimension.symm⟩

/-- Saving replaces the file by one of this tier, if it has entries. -/
theorem Kept.save (h : s.Kept bits dim) (hdim : dim < 2 ^ 32) (hcount : s.tier.entries.length < 2 ^ 32) :
    (s.step bits .save).Kept bits dim := by
  refine ⟨h.consistent, h.dimension, h.vectors, fun f hf => ?_⟩
  have hf : s.tier.save bits s.file = some f := hf
  unfold ColdTierIndex.save at hf
  split at hf
  · exact h.file f hf
  · rename_i hne
    exact ⟨s.tier, fun he => hne (List.isEmpty_iff.mpr he), h.consistent, h.fits hdim hcount, h.dimension,
      (Option.some.inj hf).symm⟩

/-- Loading a file that a tier was saved to gives that tier's entries. -/
theorem Kept.load (h : s.Kept bits dim) :
    let t := (ColdTierIndex.load bits s.tier.cleared s.file).2
    t.Consistent ∧ t.dimension = dim ∧ (∀ e ∈ t.entries, e.vector.length = dim) ∧ (s.file = none → t.entries = []) ∧
      ∀ t' : ColdTierIndex F, t'.Fits → t'.dimension = dim → s.file = some (t'.fileBytes bits) →
        t.entries = t'.entries := by
  intro t
  have hempty : s.tier.cleared.Consistent :=
    ColdTierIndex.consistent_nil _ rfl rfl
  cases hf : s.file with
  | none =>
    have ht : t = s.tier.cleared := by
      show (ColdTierIndex.load bits _ s.file).2 = _
      rw [hf]
      rfl
    rw [ht]
    exact ⟨hempty, h.dimension, fun e he => absurd he List.not_mem_nil, fun _ => rfl, fun _ _ _ hs => nomatch hs⟩
  | some f =>
    obtain ⟨t', -, hc, hfits, hd, rfl⟩ := h.file f hf
    have ht : ∀ t' : ColdTierIndex F, t'.Fits → t'.dimension = dim → s.file = some (t'.fileBytes bits) →
        t = t'.entries.foldl ColdTierIndex.push s.tier.cleared := by
      intro t' hfits hd hf
      show (ColdTierIndex.load bits _ s.file).2 = _
      have hdim : s.tier.cleared.dimension = t'.dimension := h.dimension.trans hd.symm
      rw [hf, ColdTierIndex.load_fileBytes hfits hdim]
      rfl
    have hentries : ∀ t' : ColdTierIndex F, t'.Fits → t'.dimension = dim → s.file = some (t'.fileBytes bits) →
        t.entries = t'.entries := by
      intro t' hfits hd hf
      rw [ht t' hfits hd hf, ColdTierIndex.foldl_push_entries]
      rfl
    refine ⟨?_, ?_, ?_, nofun, fun t'' hfits' hd' hs => hentries t'' hfits' hd' (hf.trans hs)⟩
    · rw [ht t' hfits hd hf]
      exact ColdTierIndex.consistent_foldl_push _ _ hempty hc.nodup fun e _ => rfl
    · rw [ht t' hfits hd hf, ColdTierIndex.foldl_push_dimension]
      exact h.dimension
    · rw [hentries t' hfits hd hf]
      exact fun e he => (hfits.vectors e he).trans hd

theorem Kept.step (h : s.Kept bits dim) (hdim : dim < 2 ^ 32) {op : ColdOp F} (ha : s.Admits op) :
    (s.step bits op).Kept bits dim := by
  obtain ⟨hcount, hvec⟩ := ha
  have hsave := h.save hdim hcount
  cases op with
  | append id v =>
    refine ⟨h.consistent.append id v, ?_, fun e he => ?_, h.file⟩
    · show (s.tier.append id v).dimension = dim
      unfold ColdTierIndex.append
      split <;> exact h.dimension
    · rcases h.consistent.mem_append.mp he with rfl | ⟨he, -⟩
      · exact (hvec id v rfl).trans h.dimension
      · exact h.vectors e he
  | remove id =>
    refine ⟨h.consistent.remove id, ?_, fun e he => h.vectors e (h.consistent.mem_remove.mp he).1, h.file⟩
    show (s.tier.remove id).dimension = dim
    unfold ColdTierIndex.remove
    split
    · exact h.dimension
    · split
      · exact h.dimension
      · split <;> exact h.dimension
  | save => exact hsave
  | reopen =>
    obtain ⟨hc, hd, hv, -, -⟩ := hsave.load
    exact ⟨hc, hd, hv, hsave.file⟩

/-- **What a new tier loads is what the closed one had, if and only if it had an
entry or nothing has been saved yet.** -/
theorem reopen_iff (bits : FloatBits F) (dim : ℕ) (hdim : dim < 2 ^ 32) (dist : List F → List F → F)
    (ops : List (ColdOp F))
    (h : Run.Along (step bits) Admits (fresh dim dist) (ops ++ [.reopen])) :
    (∀ e, e ∈ ((Run.run (step bits) (fresh dim dist) ops).reopen bits).tier.entries ↔
      e ∈ (Run.run (step bits) (fresh dim dist) ops).tier.entries) ↔
    (Run.run (step bits) (fresh dim dist) ops).tier.entries ≠ [] ∨
      (Run.run (step bits) (fresh dim dist) ops).file = none := by
  obtain ⟨hops, hlast⟩ := Run.along_concat.mp h
  have hstart : (fresh dim dist).Kept bits dim :=
    ⟨ColdTierIndex.consistent_nil _ rfl rfl, rfl, fun e he => absurd he List.not_mem_nil, nofun⟩
  have hkept : (Run.run (step bits) (fresh dim dist) ops).Kept bits dim :=
    Run.run_inv (step bits) (I := fun _ s => s.Kept bits dim) (fun _ _ _ hi hc => hi.step hdim hc) ops [] _ hstart hops
  generalize Run.run (step bits) (fresh dim dist) ops = s at hkept hlast
  obtain ⟨-, -, -, hnone, hsome⟩ := (hkept.save hdim hlast.1).load
  have hnone : s.tier.save bits s.file = none → (s.reopen bits).tier.entries = [] := hnone
  have hsome : ∀ t' : ColdTierIndex F, t'.Fits → t'.dimension = dim →
      s.tier.save bits s.file = some (t'.fileBytes bits) → (s.reopen bits).tier.entries = t'.entries := hsome
  by_cases he : s.tier.entries = []
  · have hfile : s.tier.save bits s.file = s.file := if_pos (List.isEmpty_iff.mpr he)
    rw [he]
    cases hf : s.file with
    | none =>
      rw [hnone (hfile.trans hf)]
      simp
    | some f =>
      obtain ⟨t, hne, -, hfits, hd, rfl⟩ := hkept.file f hf
      rw [hsome t hfits hd (hfile.trans hf)]
      refine iff_of_false (fun hall => hne (List.eq_nil_iff_forall_not_mem.mpr fun e => ?_)) (by simp)
      exact fun hmem => List.not_mem_nil ((hall e).mp hmem)
  · have hfile : s.tier.save bits s.file = some (s.tier.fileBytes bits) :=
      if_neg fun hc => he (List.isEmpty_iff.mp hc)
    rw [hsome s.tier (hkept.fits hdim hlast.1) hkept.dimension hfile]
    simp [he]

instance (s : ColdStore F) : ∀ op : ColdOp F, Decidable (s.Admits op)
  | .append _ v => decidable_of_iff (s.tier.entries.length < 2 ^ 32 ∧ v.length = s.tier.dimension) (by simp [Admits])
  | .remove _ | .save | .reopen => decidable_of_iff (s.tier.entries.length < 2 ^ 32) (by simp [Admits])

/-- Floats by their bits. -/
def rawBits : FloatBits UInt32 := ⟨fun x => x, fun x => x, fun _ => rfl⟩

/-- Two vectors are appended and saved, and those of `ids` are removed again. -/
def savedThenRemoved (ids : List UInt64) : List (ColdOp UInt32) :=
  [.append 7 [5], .append 8 [6], .save] ++ ids.map .remove

/-- The vector that is left is loaded. -/
theorem reopen_seven :
    ⟨8, [6]⟩ ∈ ((Run.run (step rawBits) (fresh 1 fun _ _ => 0) (savedThenRemoved [7])).reopen rawBits).tier.entries ∧
      ⟨7, [5]⟩ ∉ ((Run.run (step rawBits) (fresh 1 fun _ _ => 0) (savedThenRemoved [7])).reopen rawBits).tier.entries := by
  have h := (reopen_iff rawBits 1 (by decide) (fun _ _ => 0) (savedThenRemoved [7]) (by decide)).mpr
    (.inl (by decide))
  exact ⟨(h _).mpr (by decide), fun hin => absurd ((h _).mp hin) (by decide)⟩

/-- Once both are removed the tier is empty, and both come back. -/
theorem reopen_both :
    (Run.run (step rawBits) (fresh 1 fun _ _ => 0) (savedThenRemoved [7, 8])).tier.entries = [] ∧
    ((Run.run (step rawBits) (fresh 1 fun _ _ => 0) (savedThenRemoved [7, 8])).reopen rawBits).tier.entries =
      [⟨7, [5]⟩, ⟨8, [6]⟩] := by
  decide

end ColdStore
end Vector
end Amind
