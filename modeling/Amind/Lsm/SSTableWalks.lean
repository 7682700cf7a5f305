/-
# Walking over a table

A scan, a walk over all entries and a cursor go from block to block. A block that
cannot be read ends them by an exception, one without entries ends a cursor, and
a scan ends at a key above its range. So the value of a block's last entry is read
if all blocks before were passed.

`bounds_iff` puts together when a file is opened and read inside of its bounds.

Key definitions: `Bounded.InBounds`, `Bounded.AllFits`.
-/
import Amind.Lsm.SSTableBounds

namespace Amind
namespace Lsm
namespace Bounded

open LittleEndian
open Checked (walk Safe)

/-! ### Walking over the entries -/

section Walks

variable (lz : Lz4) (r : SSTableReader) (minKey maxKey : Key)

/-- Before `i`, all of the list passes. -/
def AllBefore {α : Type} (passes : α → Prop) (l : List α) (i : ℕ) : Prop := ∀ k < i, ∀ a, l[k]? = some a → passes a

/-- A walk over all entries reads the values of every block behind blocks that can be
read. -/
def EachFits : Prop := ∀ i e, r.indexEntries[i]? = some e →
  AllBefore (fun e => ∃ b, r.readBlock lz e = .ok b) r.indexEntries i →
    BlockFits r e ∧ ∀ b, r.readBlock lz e = .ok b → LastFits b

/-- The keys of the block are not above the range. -/
def AllBelow (b : BlockReader) : Prop := ∀ i < b.entryCount, b.keyAt i ≤ maxKey

/-- A scan reads blocks from the one of the lowest key on, as long as the keys before
are not above the range, and of these the values of keys in the range. -/
def ScanFits : Prop := minKey ≤ maxKey → ∀ i e, (r.indexEntries.drop (r.findBlockIndex minKey).toNat)[i]? = some e →
  AllBefore (fun e => e.firstKey ≤ maxKey ∧ ∃ b, r.readBlock lz e = .ok b ∧ AllBelow maxKey b)
    (r.indexEntries.drop (r.findBlockIndex minKey).toNat) i →
    e.firstKey ≤ maxKey → BlockFits r e ∧
      ∀ b, r.readBlock lz e = .ok b → AllBelow maxKey b → minKey ≤ b.keyAt (b.entryCount - 1) → LastFits b

variable {lz r minKey maxKey} {b : BlockReader} {e : IndexEntry}

theorem Parsed.eachEntry (hb : Parsed b) {i : ℕ} (hi : i < b.entryCount) :
    (Safe (Bounded.eachEntry b i) ↔ ValueFits b i) ∧ (ValueFits b i → Checked.GoesOn (Bounded.eachEntry b) i) := by
  unfold Checked.GoesOn Bounded.eachEntry
  constructor
  · rw [hb.entryAt hi, Checked.ok_bind, Checked.safe_bind]
    dsimp only
    rw [safe_valueOf_iff]
    exact ⟨fun h => h.1, fun h => ⟨h, fun _ _ => trivial⟩⟩
  · intro h
    refine ⟨[(b.keyAt i, slice b.decompressed (offsetAt b i + 8 + 4) (sizeAt b i))], ?_⟩
    rw [hb.entryAt hi, Checked.ok_bind]
    dsimp only
    rw [valueOf_eq h, Checked.ok_bind]

theorem Parsed.lastFits_iff (hb : Parsed b) : LastFits b ↔ ∀ i < b.entryCount, ValueFits b i := by
  constructor
  · intro h i hi
    exact (hb.valueFits_iff hi).mpr fun _ => h
  · intro h hpos
    exact h _ (by omega)

theorem Parsed.safe_eachEntries (hb : Parsed b) :
    (Safe (walk (Bounded.eachEntry b) (List.range b.entryCount)) ↔ LastFits b) ∧
    (LastFits b → ∃ l, walk (Bounded.eachEntry b) (List.range b.entryCount) = .ok (l, true)) := by
  constructor
  · have hwalk : Safe (walk (Bounded.eachEntry b) (List.range b.entryCount)) ↔
        ∀ i a, (List.range b.entryCount)[i]? = some a →
          (∀ k < i, ∀ j, (List.range b.entryCount)[k]? = some j → True) → ValueFits b a :=
      Checked.safe_walk_iff (fun i hi => (hb.eachEntry (List.mem_range.mp hi)).1)
        fun i hi hfits => iff_of_true ((hb.eachEntry (List.mem_range.mp hi)).2 hfits) trivial
    rw [hwalk, hb.lastFits_iff]
    constructor
    · intro h i hi
      exact h i i (List.getElem?_range hi) fun _ _ _ _ => trivial
    · intro h i a ha _
      exact h a (List.mem_range.mp (List.mem_of_getElem? ha))
  · intro h
    refine (Checked.goesOn_walk_iff _).mpr fun i hi => ?_
    exact (hb.eachEntry (List.mem_range.mp hi)).2 (hb.lastFits_iff.mp h i (List.mem_range.mp hi))

theorem Opened.safe_forEach_iff (hr : Opened r) : Safe (forEach lz r) ↔ EachFits lz r := by
  have hsafe : ∀ e ∈ r.indexEntries, Safe (eachBlock lz r e) ↔
      BlockFits r e ∧ ∀ b, r.readBlock lz e = .ok b → LastFits b := by
    intro e he
    unfold eachBlock
    rw [hr.safe_readBlock_bind he]
    refine and_congr_right fun _ => forall_congr' fun b => imp_congr_right fun hb => ?_
    exact (parsed_readBlock hb).safe_eachEntries.1
  have hon : ∀ e ∈ r.indexEntries, (BlockFits r e ∧ ∀ b, r.readBlock lz e = .ok b → LastFits b) →
      (Checked.GoesOn (eachBlock lz r) e ↔ ∃ b, r.readBlock lz e = .ok b) := by
    rintro e - ⟨hfits, hlast⟩
    refine (goesOn_readBlock_bind hfits).trans (exists_congr fun b => ⟨fun h => h.1, fun hb => ⟨hb, ?_⟩⟩)
    exact (parsed_readBlock hb).safe_eachEntries.2 (hlast b hb)
  unfold forEach
  rw [Checked.safe_bind, Checked.safe_walk_iff hsafe hon]
  exact ⟨fun h => h.1, fun h => ⟨h, fun _ _ => trivial⟩⟩

/-- One entry in a scan: its value is read if its key is in the range, and the scan goes
on if it is not above. -/
theorem Parsed.scanEntry (hb : Parsed b) {i : ℕ} (hi : i < b.entryCount) :
    (Safe (Bounded.scanEntry b minKey maxKey i) ↔ (b.keyAt i ≤ maxKey → minKey ≤ b.keyAt i → ValueFits b i)) ∧
    ((b.keyAt i ≤ maxKey → minKey ≤ b.keyAt i → ValueFits b i) →
      (Checked.GoesOn (Bounded.scanEntry b minKey maxKey) i ↔ b.keyAt i ≤ maxKey)) := by
  unfold Checked.GoesOn Bounded.scanEntry
  rw [hb.entryAt hi, Checked.ok_bind]
  dsimp only
  by_cases habove : maxKey < b.keyAt i
  · rw [if_pos habove]
    refine ⟨iff_of_true trivial fun h => absurd habove (not_lt.mpr h), fun _ => iff_of_false ?_ (not_le.mpr habove)⟩
    rintro ⟨out, h⟩
    cases h
  · rw [if_neg habove]
    by_cases hin : minKey ≤ b.keyAt i
    · rw [if_pos hin]
      constructor
      · rw [Checked.safe_bind, safe_valueOf_iff]
        exact ⟨fun h _ _ => h.1, fun h => ⟨h (not_lt.mp habove) hin, fun _ _ => trivial⟩⟩
      · intro h
        refine iff_of_true ⟨[(b.keyAt i, slice b.decompressed (offsetAt b i + 8 + 4) (sizeAt b i))], ?_⟩
          (not_lt.mp habove)
        rw [valueOf_eq (h (not_lt.mp habove) hin), Checked.ok_bind]
    · rw [if_neg hin]
      exact ⟨iff_of_true trivial fun _ h => absurd h hin, fun _ => iff_of_true ⟨[], rfl⟩ (not_lt.mp habove)⟩

theorem Parsed.safe_scanEntries (hb : Parsed b) :
    (Safe (walk (Bounded.scanEntry b minKey maxKey) (List.range b.entryCount)) ↔
      (AllBelow maxKey b → minKey ≤ b.keyAt (b.entryCount - 1) → LastFits b)) ∧
    ((AllBelow maxKey b → minKey ≤ b.keyAt (b.entryCount - 1) → LastFits b) →
      ((∃ l, walk (Bounded.scanEntry b minKey maxKey) (List.range b.entryCount) = .ok (l, true)) ↔
        AllBelow maxKey b)) := by
  have hvalues : (AllBelow maxKey b → minKey ≤ b.keyAt (b.entryCount - 1) → LastFits b) ↔
      ∀ (i a : ℕ), (List.range b.entryCount)[i]? = some a → (∀ k < i, ∀ j, (List.range b.entryCount)[k]? = some j →
        b.keyAt j ≤ maxKey) → b.keyAt a ≤ maxKey → minKey ≤ b.keyAt a → ValueFits b a := by
    constructor
    · intro h i a ha hbefore hle hge
      have hi := List.mem_range.mp (List.mem_of_getElem? ha)
      obtain rfl : i = a := by
        obtain ⟨hlt, heq⟩ := List.getElem?_eq_some_iff.mp ha
        rwa [List.getElem_range] at heq
      refine (hb.valueFits_iff hi).mpr fun hlast => h (fun k hk => ?_) ?_
      · rcases Nat.lt_or_eq_of_le (Nat.le_of_lt_succ (hlast ▸ hk)) with hk | rfl
        · exact hbefore k hk k (List.getElem?_range (by omega))
        · exact hle
      · have heq : b.entryCount - 1 = i := by omega
        rw [heq]
        exact hge
    · intro h hbelow hge hpos
      have hi : b.entryCount - 1 < b.entryCount := by omega
      exact h _ _ (List.getElem?_range hi) (fun k hk j hj => hbelow j (List.mem_range.mp (List.mem_of_getElem? hj)))
        (hbelow _ hi) hge
  constructor
  · rw [hvalues]
    exact Checked.safe_walk_iff (fun i hi => (hb.scanEntry (List.mem_range.mp hi)).1)
      fun i hi => (hb.scanEntry (List.mem_range.mp hi)).2
  · intro h
    rw [Checked.goesOn_walk_iff]
    constructor
    · intro hall i hi
      have hgoes := hall i (List.mem_range.mpr hi)
      have hfits : b.keyAt i ≤ maxKey → minKey ≤ b.keyAt i → ValueFits b i := by
        obtain ⟨out, hout⟩ := hgoes
        refine (hb.scanEntry hi).1.mp ?_
        rw [hout]
        trivial
      exact ((hb.scanEntry hi).2 hfits).mp hgoes
    · intro hbelow i hi
      have hi := List.mem_range.mp hi
      refine ((hb.scanEntry hi).2 fun _ hge => ?_).mpr (hbelow i hi)
      refine hvalues.mp h i i (List.getElem?_range hi) (fun k hk j hj => ?_) (hbelow i hi) hge
      exact hbelow j (List.mem_range.mp (List.mem_of_getElem? hj))

theorem Opened.safe_scan_iff (hr : Opened r) (minKey maxKey : Key) :
    Safe (scan lz r minKey maxKey) ↔ ScanFits lz r minKey maxKey := by
  have hsafe : ∀ e ∈ r.indexEntries.drop (r.findBlockIndex minKey).toNat, Safe (scanBlock lz r minKey maxKey e) ↔
      (e.firstKey ≤ maxKey → BlockFits r e ∧
        ∀ b, r.readBlock lz e = .ok b → AllBelow maxKey b → minKey ≤ b.keyAt (b.entryCount - 1) → LastFits b) := by
    intro e he
    unfold scanBlock
    by_cases habove : maxKey < e.firstKey
    · rw [if_pos habove]
      exact iff_of_true trivial fun h => absurd habove (not_lt.mpr h)
    · rw [if_neg habove, hr.safe_readBlock_bind (List.mem_of_mem_drop he)]
      rw [forall_prop_of_true (not_lt.mp habove)]
      refine and_congr_right fun _ => forall_congr' fun b => imp_congr_right fun hb => ?_
      exact (parsed_readBlock hb).safe_scanEntries.1
  have hon : ∀ e ∈ r.indexEntries.drop (r.findBlockIndex minKey).toNat, (e.firstKey ≤ maxKey → BlockFits r e ∧
        ∀ b, r.readBlock lz e = .ok b → AllBelow maxKey b → minKey ≤ b.keyAt (b.entryCount - 1) → LastFits b) →
      (Checked.GoesOn (scanBlock lz r minKey maxKey) e ↔
        e.firstKey ≤ maxKey ∧ ∃ b, r.readBlock lz e = .ok b ∧ AllBelow maxKey b) := by
    intro e _ hfits
    unfold Checked.GoesOn scanBlock
    by_cases habove : maxKey < e.firstKey
    · rw [if_pos habove]
      refine iff_of_false ?_ fun h => absurd habove (not_lt.mpr h.1)
      rintro ⟨out, h⟩
      cases h
    · obtain ⟨hblock, hlast⟩ := hfits (not_lt.mp habove)
      rw [if_neg habove, goesOn_readBlock_bind hblock, and_iff_right (not_lt.mp habove)]
      exact exists_congr fun b => and_congr_right fun hb => (parsed_readBlock hb).safe_scanEntries.2 (hlast b hb)
  unfold scan ScanFits
  by_cases hempty : r.indexEntries = []
  · rw [if_pos (.inl hempty)]
    refine iff_of_true trivial fun _ i e he => ?_
    rw [hempty, List.drop_nil] at he
    cases he
  · by_cases hrange : minKey ≤ maxKey
    · have hneither : ¬(r.indexEntries = [] ∨ maxKey < minKey) := fun h => h.elim hempty (not_lt.mpr hrange)
      rw [if_neg hneither, (findBlockIndex_eq minKey).1, Checked.ok_bind, Checked.safe_bind,
        Checked.safe_walk_iff hsafe hon, forall_prop_of_true hrange]
      exact ⟨fun h => h.1, fun h => ⟨h, fun _ _ => trivial⟩⟩
    · rw [if_pos (.inr (not_le.mp hrange))]
      exact iff_of_true trivial fun h => absurd h hrange

end Walks

/-! ### Going on with a cursor -/

section Cursors

variable (lz : Lz4) (r : SSTableReader)

/-- A block the cursor walks over to the next. A block without entries ends it. -/
def Passed (e : IndexEntry) : Prop := ∃ b, r.readBlock lz e = .ok b ∧ 0 < b.entryCount

/-- A cursor reads the values of every block behind blocks it walks over. -/
def CursorFits : Prop := ∀ i e, r.indexEntries[i]? = some e → AllBefore (Passed lz r) r.indexEntries i →
  BlockFits r e ∧ ∀ b, r.readBlock lz e = .ok b → LastFits b

/-- A valid cursor stands at an entry of a block, and has walked over those before. -/
structure Standing (c : SSTableCursor) : Prop where
  reader : c.reader = some r
  block : ∃ e b, r.indexEntries[c.blockIdx]? = some e ∧ r.readBlock lz e = .ok b ∧ c.currentBlock = some b ∧
    c.entryIdx < b.entryCount
  before : AllBefore (Passed lz r) r.indexEntries c.blockIdx

/-- The cursor at an entry of a block. -/
def placed (c : SSTableCursor) (b : BlockReader) : SSTableCursor :=
  { c with
    currentBlock := some b
    current := (b.keyAt c.entryIdx, slice b.decompressed (offsetAt b c.entryIdx + 8 + 4) (sizeAt b c.entryIdx))
    valid := true }

/-- The cursor at the start of the next block. -/
def behind (c : SSTableCursor) : SSTableCursor :=
  { c with blockIdx := c.blockIdx + 1, entryIdx := 0, currentBlock := none }

variable {lz r} {c : SSTableCursor} {b : BlockReader} {e : IndexEntry}

theorem loadEntry_eq (hb : Parsed b) (hi : c.entryIdx < b.entryCount) (h : ValueFits b c.entryIdx) :
    loadEntry c b = .ok (placed c b) := by
  unfold loadEntry
  rw [hb.entryAt hi, Checked.ok_bind]
  dsimp only
  rw [valueOf_eq h, Checked.ok_bind]
  rfl

theorem safe_loadEntry_iff (hb : Parsed b) (hi : c.entryIdx < b.entryCount) :
    Safe (loadEntry c b) ↔ ValueFits b c.entryIdx := by
  unfold loadEntry
  rw [hb.entryAt hi, Checked.ok_bind, Checked.safe_bind]
  dsimp only
  rw [safe_valueOf_iff]
  exact ⟨fun h => h.1, fun h => ⟨h, fun _ _ => trivial⟩⟩

theorem loadCurrentEntry_eq (hreader : c.reader = some r) (he : r.indexEntries[c.blockIdx]? = some e) :
    loadCurrentEntry lz c = readBlock lz r e >>= fun b =>
      if b.entryCount ≤ c.entryIdx then .ok { c with currentBlock := some b, valid := false } else loadEntry c b := by
  unfold loadCurrentEntry
  rw [hreader]
  dsimp only
  rw [he]

theorem nextBlock_of_lt (hreader : c.reader = some r) (h : c.blockIdx + 1 < r.indexEntries.length) :
    nextBlock lz c = loadCurrentEntry lz (behind c) := by
  unfold nextBlock behind
  dsimp only
  rw [hreader]
  dsimp only
  rw [if_neg (Nat.not_le.mpr h)]

theorem nextBlock_of_le (hreader : c.reader = some r) (h : r.indexEntries.length ≤ c.blockIdx + 1) :
    nextBlock lz c = .ok { behind c with valid := false } := by
  unfold nextBlock behind
  dsimp only
  rw [hreader]
  dsimp only
  rw [if_pos h]

theorem next_of_lt (hvalid : c.valid = true) (hblock : c.currentBlock = some b) (h : c.entryIdx + 1 < b.entryCount) :
    next lz c = loadEntry { c with entryIdx := c.entryIdx + 1 } b := by
  unfold next
  rw [if_neg (by rw [hvalid]; decide)]
  dsimp only
  rw [hblock]
  dsimp only
  rw [if_pos h]

theorem next_of_le (hvalid : c.valid = true) (hblock : c.currentBlock = some b) (h : b.entryCount ≤ c.entryIdx + 1) :
    next lz c = nextBlock lz { c with entryIdx := c.entryIdx + 1 } := by
  unfold next
  rw [if_neg (by rw [hvalid]; decide)]
  dsimp only
  rw [hblock]
  dsimp only
  rw [if_neg (Nat.not_lt.mpr h)]

/-- On entering a block, its first value is read. -/
theorem Opened.safe_loadCurrentEntry_iff (hr : Opened r) (hreader : c.reader = some r)
    (he : r.indexEntries[c.blockIdx]? = some e) : Safe (loadCurrentEntry lz c) ↔
      BlockFits r e ∧ ∀ b, r.readBlock lz e = .ok b → c.entryIdx < b.entryCount → ValueFits b c.entryIdx := by
  rw [loadCurrentEntry_eq hreader he, hr.safe_readBlock_bind (List.mem_of_getElem? he)]
  refine and_congr_right fun _ => forall_congr' fun b => imp_congr_right fun hb => ?_
  by_cases h : b.entryCount ≤ c.entryIdx
  · rw [if_pos h]
    exact iff_of_true trivial fun hlt => absurd h (Nat.not_le.mpr hlt)
  · rw [if_neg h, safe_loadEntry_iff (parsed_readBlock hb) (Nat.not_le.mp h), forall_prop_of_true (Nat.not_le.mp h)]

/-- A block that has been entered. -/
theorem loadCurrentEntry_placed (hreader : c.reader = some r) (he : r.indexEntries[c.blockIdx]? = some e)
    (hfits : BlockFits r e) (hb : r.readBlock lz e = .ok b) (hi : c.entryIdx < b.entryCount)
    (h : ValueFits b c.entryIdx) : loadCurrentEntry lz c = .ok (placed c b) := by
  rw [loadCurrentEntry_eq hreader he, readBlock_eq hfits, hb]
  show (if b.entryCount ≤ c.entryIdx then _ else loadEntry c b) = _
  rw [if_neg (Nat.not_le.mpr hi), loadEntry_eq (parsed_readBlock hb) hi h]

/-! A cursor that never reads outside comes to every entry of a block it enters, and
then to the next block. -/

theorem entries_visited (hr : Opened r) (hsafe : ∀ n, Safe (cursorAfter lz r n)) (hreader : c.reader = some r)
    (he : r.indexEntries[c.blockIdx]? = some e) (hentry : c.entryIdx = 0) {n : ℕ}
    (hn : cursorAfter lz r n = loadCurrentEntry lz c) (hb : r.readBlock lz e = .ok b) :
    ∀ j < b.entryCount, ValueFits b j ∧ cursorAfter lz r (n + j) = .ok (placed { c with entryIdx := j } b) := by
  intro j
  induction j with
  | zero =>
    intro hj
    have hload := hsafe n
    rw [hn, hr.safe_loadCurrentEntry_iff hreader he] at hload
    obtain ⟨hfits, hfirst⟩ := hload
    have hlt : c.entryIdx < b.entryCount := hentry.symm ▸ hj
    have hvalue := hfirst b hb hlt
    refine ⟨hentry ▸ hvalue, ?_⟩
    rw [Nat.add_zero, hn, loadCurrentEntry_placed hreader he hfits hb hlt hvalue, ← hentry]
  | succ j ih =>
    intro hj
    obtain ⟨-, hat⟩ := ih (Nat.lt_of_succ_lt hj)
    have hstep : cursorAfter lz r (n + (j + 1)) = loadEntry (placed { c with entryIdx := j + 1 } b) b := by
      show cursorAfter lz r (n + j) >>= next lz = _
      rw [hat, Checked.ok_bind, next_of_lt rfl rfl hj]
      rfl
    have hvalue := hsafe (n + (j + 1))
    rw [hstep, safe_loadEntry_iff (parsed_readBlock hb) hj] at hvalue
    refine ⟨hvalue, ?_⟩
    rw [hstep, loadEntry_eq (parsed_readBlock hb) hj hvalue]
    rfl

theorem block_entered (hr : Opened r) (hsafe : ∀ n, Safe (cursorAfter lz r n)) : ∀ i < r.indexEntries.length,
    AllBefore (Passed lz r) r.indexEntries i → ∃ n c, cursorAfter lz r n = loadCurrentEntry lz c ∧ c.reader = some r ∧
      c.blockIdx = i ∧ c.entryIdx = 0 := by
  intro i
  induction i with
  | zero =>
    intro hi _
    refine ⟨0, ⟨some r, 0, 0, false, (0, []), none⟩, ?_, rfl, rfl, rfl⟩
    show cursor lz r = _
    unfold cursor
    rw [if_neg (List.ne_nil_of_length_pos hi)]
  | succ i ih =>
    intro hi hbefore
    obtain ⟨n, c, hn, hreader, hblock, hentry⟩ := ih (Nat.lt_of_succ_lt hi) fun k hk => hbefore k (Nat.lt_succ_of_lt hk)
    have hlt : i < r.indexEntries.length := Nat.lt_of_succ_lt hi
    have he : r.indexEntries[c.blockIdx]? = some r.indexEntries[i] := by
      rw [hblock]
      exact List.getElem?_eq_getElem _
    obtain ⟨b, hb, hpos⟩ := hbefore i (Nat.lt_succ_self i) _ (hblock ▸ he)
    have hlast : b.entryCount - 1 < b.entryCount := by omega
    obtain ⟨-, hat⟩ := entries_visited hr hsafe hreader he hentry hn hb _ hlast
    refine ⟨n + (b.entryCount - 1) + 1, behind { placed { c with entryIdx := b.entryCount - 1 } b with
      entryIdx := b.entryCount - 1 + 1 }, ?_, hreader, congrArg Nat.succ hblock, rfl⟩
    show cursorAfter lz r (n + (b.entryCount - 1)) >>= next lz = _
    rw [hat, Checked.ok_bind, next_of_le rfl rfl (by show b.entryCount ≤ b.entryCount - 1 + 1; omega)]
    exact nextBlock_of_lt hreader (by show c.blockIdx + 1 < r.indexEntries.length; omega)

/-! A valid cursor goes on to a valid cursor, or to the end. -/

theorem standing_load (hreader : c.reader = some r) (he : r.indexEntries[c.blockIdx]? = some e)
    (hbefore : AllBefore (Passed lz r) r.indexEntries c.blockIdx) (hfits : CursorFits lz r) {c' : SSTableCursor}
    (h : loadCurrentEntry lz c = .ok c') : c'.valid = true → Standing lz r c' := by
  rw [loadCurrentEntry_eq hreader he, readBlock_eq (hfits _ e he hbefore).1] at h
  cases hb : r.readBlock lz e with
  | error x =>
    rw [hb] at h
    cases h
  | ok b =>
    rw [hb] at h
    change (if b.entryCount ≤ c.entryIdx then _ else loadEntry c b) = _ at h
    by_cases hcount : b.entryCount ≤ c.entryIdx
    · rw [if_pos hcount] at h
      obtain rfl := Except.ok.inj h
      exact fun hvalid => absurd hvalid Bool.false_ne_true
    · have hi := Nat.not_le.mp hcount
      have hlast := (hfits _ e he hbefore).2 b hb
      rw [if_neg hcount, loadEntry_eq (parsed_readBlock hb) hi ((parsed_readBlock hb).lastFits_iff.mp hlast _ hi)] at h
      obtain rfl := Except.ok.inj h
      exact fun _ => ⟨hreader, ⟨e, b, he, hb, rfl, hi⟩, hbefore⟩

theorem Opened.safe_load_of_fits (hr : Opened r) (hreader : c.reader = some r)
    (he : r.indexEntries[c.blockIdx]? = some e) (hbefore : AllBefore (Passed lz r) r.indexEntries c.blockIdx)
    (hfits : CursorFits lz r) : Safe (loadCurrentEntry lz c) := by
  obtain ⟨hblock, hlast⟩ := hfits _ e he hbefore
  refine (hr.safe_loadCurrentEntry_iff hreader he).mpr ⟨hblock, fun b hb hi => ?_⟩
  exact (parsed_readBlock hb).lastFits_iff.mp (hlast b hb) _ hi

theorem Opened.next (hr : Opened r) (hfits : CursorFits lz r) (hc : c.valid = true → Standing lz r c) :
    Safe (next lz c) ∧ ∀ c', next lz c = .ok c' → c'.valid = true → Standing lz r c' := by
  cases hvalid : c.valid with
  | false =>
    unfold Bounded.next
    rw [if_pos hvalid]
    refine ⟨trivial, fun c' h hvalid' => ?_⟩
    obtain rfl := Except.ok.inj h
    exact hc hvalid'
  | true =>
    obtain ⟨hreader, ⟨e, b, he, hb, hblock, hi⟩, hbefore⟩ := hc hvalid
    by_cases hmore : c.entryIdx + 1 < b.entryCount
    · have hvalue := (parsed_readBlock hb).lastFits_iff.mp ((hfits _ e he hbefore).2 b hb) _ hmore
      have hnext : Bounded.next lz c = .ok (placed { c with entryIdx := c.entryIdx + 1 } b) :=
        (next_of_lt hvalid hblock hmore).trans (loadEntry_eq (parsed_readBlock hb) hmore hvalue)
      rw [hnext]
      refine ⟨trivial, fun c' h _ => ?_⟩
      obtain rfl := Except.ok.inj h
      exact ⟨hreader, ⟨e, b, he, hb, rfl, hmore⟩, hbefore⟩
    · rw [next_of_le hvalid hblock (Nat.not_lt.mp hmore)]
      by_cases hend : c.blockIdx + 1 < r.indexEntries.length
      · have hbefore' : AllBefore (Passed lz r) r.indexEntries (c.blockIdx + 1) := by
          intro k hk a ha
          rcases Nat.lt_succ_iff_lt_or_eq.mp hk with hk | rfl
          · exact hbefore k hk a ha
          · obtain rfl := Option.some.inj (he.symm.trans ha)
            exact ⟨b, hb, by omega⟩
        have he' := List.getElem?_eq_getElem hend
        rw [nextBlock_of_lt (c := { c with entryIdx := c.entryIdx + 1 }) hreader hend]
        constructor
        · exact hr.safe_load_of_fits (c := behind { c with entryIdx := c.entryIdx + 1 }) hreader he' hbefore' hfits
        · intro c' h
          exact standing_load (c := behind { c with entryIdx := c.entryIdx + 1 }) hreader he' hbefore' hfits h
      · rw [nextBlock_of_le (c := { c with entryIdx := c.entryIdx + 1 }) hreader (Nat.not_lt.mp hend)]
        refine ⟨trivial, fun c' h hvalid' => ?_⟩
        obtain rfl := Except.ok.inj h
        exact absurd hvalid' Bool.false_ne_true

theorem Opened.cursorAfter (hr : Opened r) (hfits : CursorFits lz r) : ∀ n, Safe (cursorAfter lz r n) ∧
    ∀ c, cursorAfter lz r n = .ok c → c.valid = true → Standing lz r c
  | 0 => by
    unfold Bounded.cursorAfter cursor
    by_cases hempty : r.indexEntries = []
    · rw [if_pos hempty]
      refine ⟨trivial, fun c h hvalid => ?_⟩
      obtain rfl := Except.ok.inj h
      exact absurd hvalid Bool.false_ne_true
    · have he := List.getElem?_eq_getElem (List.length_pos_of_ne_nil hempty)
      have hbefore : AllBefore (Passed lz r) r.indexEntries 0 := fun k hk => absurd hk (Nat.not_lt_zero k)
      rw [if_neg hempty]
      constructor
      · exact hr.safe_load_of_fits (c := ⟨some r, 0, 0, false, (0, []), none⟩) rfl he hbefore hfits
      · exact fun c h => standing_load (c := ⟨some r, 0, 0, false, (0, []), none⟩) rfl he hbefore hfits h
  | n + 1 => by
    obtain ⟨hsafe, hstanding⟩ := hr.cursorAfter hfits n
    constructor
    · exact Checked.safe_bind.mpr ⟨hsafe, fun c h => (hr.next hfits (hstanding c h)).1⟩
    · intro c' h
      change Bounded.cursorAfter lz r n >>= Bounded.next lz = _ at h
      cases hc : Bounded.cursorAfter lz r n with
      | error x =>
        rw [hc] at h
        cases h
      | ok c =>
        rw [hc] at h
        exact (hr.next hfits (hstanding c hc)).2 c' h

theorem Opened.safe_cursor_iff (hr : Opened r) : (∀ n, Safe (Bounded.cursorAfter lz r n)) ↔ CursorFits lz r := by
  constructor
  · intro hsafe i e he hbefore
    obtain ⟨n, c, hn, hreader, rfl, hentry⟩ := block_entered hr hsafe i (List.getElem?_eq_some_iff.mp he).1 hbefore
    have hload := hsafe n
    rw [hn, hr.safe_loadCurrentEntry_iff hreader he] at hload
    refine ⟨hload.1, fun b hb => (parsed_readBlock hb).lastFits_iff.mpr fun j hj => ?_⟩
    exact (entries_visited hr hsafe hreader he hentry hn hb j hj).1
  · exact fun hfits n => (hr.cursorAfter hfits n).1

end Cursors

/-! ### All of it -/

variable (lz : Lz4) (hash : Key → UInt64 → UInt64)

/-- Whatever a table is asked for is answered inside of it. -/
def AllSafe (r : SSTableReader) : Prop :=
  (∀ key, Safe (get lz hash r key)) ∧ (∀ minKey maxKey, Safe (scan lz r minKey maxKey)) ∧ Safe (forEach lz r) ∧
    ∀ n, Safe (cursorAfter lz r n)

/-- A file that may be opened, and then asked for anything. -/
def InBounds (path : String) (data : Bytes) : Prop :=
  Safe (load path data) ∧ ∀ r, load path data = .ok r → AllSafe lz hash r

/-- What a table is read of fits. -/
def AllFits (r : SSTableReader) : Prop :=
  (∀ key, GetFits lz hash r key) ∧ (∀ minKey maxKey, ScanFits lz r minKey maxKey) ∧ EachFits lz r ∧ CursorFits lz r

/-- **A file is opened and read without a read outside and without a remainder by zero if
and only if no end wraps around that is compared with the size of the file, a filter
has bits or no hash functions, and the last value of each block that is read ends
inside.** A file has less than `2 ^ 63` bytes, as its size is a signed number. -/
theorem bounds_iff (path : String) (data : Bytes) (hsize : data.length < 2 ^ 63) : InBounds lz hash path data ↔
    OpenFits data ∧ ∀ r, SSTableReader.load path data = .ok r → AllFits lz hash r := by
  unfold InBounds
  rw [safe_load_iff hsize]
  refine and_congr_right fun hopen => forall_congr' fun r => ?_
  rw [load_eq hopen]
  constructor
  · intro h hload
    have hr := opened_load hsize hload
    obtain ⟨hget, hscan, heach, hcursor⟩ := h (by rw [hload]; rfl)
    exact ⟨fun key => (hr.safe_get_iff key).mp (hget key), fun lo hi => (hr.safe_scan_iff lo hi).mp (hscan lo hi),
      hr.safe_forEach_iff.mp heach, hr.safe_cursor_iff.mp hcursor⟩
  · intro h hload
    cases hread : SSTableReader.load path data with
    | error x =>
      rw [hread] at hload
      cases hload
    | ok r' =>
      rw [hread] at hload
      obtain rfl := Except.ok.inj hload
      have hr := opened_load hsize hread
      obtain ⟨hget, hscan, heach, hcursor⟩ := h hread
      exact ⟨fun key => (hr.safe_get_iff key).mpr (hget key), fun lo hi => (hr.safe_scan_iff lo hi).mpr (hscan lo hi),
        hr.safe_forEach_iff.mpr heach, hr.safe_cursor_iff.mpr hcursor⟩

/-- It is enough that every block of the table fits, whatever is asked for. -/
theorem allFits_of_blocks {r : SSTableReader} (hbloom : r.bloomFilter.numBits ≠ 0 ∨ r.bloomFilter.numHashFuncs = 0)
    (h : ∀ e ∈ r.indexEntries, BlockFits r e ∧ ∀ b, r.readBlock lz e = .ok b → LastFits b) : AllFits lz hash r := by
  refine ⟨fun key => ⟨hbloom, fun _ hge => ?_⟩, fun lo hi _ i e he _ _ => ?_, fun i e he _ => ?_, fun i e he _ => ?_⟩
  · have hlt := (findBlockIndex_eq (r := r) key).2
    have hi : (r.findBlockIndex key).toNat < r.indexEntries.length := by omega
    rw [List.getD_eq_getElem?_getD, List.getElem?_eq_getElem hi]
    obtain ⟨hblock, hlast⟩ := h _ (List.getElem_mem hi)
    exact ⟨hblock, fun b hb _ _ => hlast b hb⟩
  · obtain ⟨hblock, hlast⟩ := h e (List.mem_of_mem_drop (List.mem_of_getElem? he))
    exact ⟨hblock, fun b hb _ _ => hlast b hb⟩
  · exact h e (List.mem_of_getElem? he)
  · exact h e (List.mem_of_getElem? he)

/-- A codec that copies. -/
def copied : Lz4 := ⟨id, fun data n => if data.length = n then some data else none⟩

/-- A table of one block of one entry, whose value is said to have one byte, and a filter
of eight bits and one hash function. -/
def oneEntryTable (value : Bytes) : Bytes :=
  toLE 4 (16 + value.length) ++ (toLE 4 1 ++ (toLE 8 7 ++ (toLE 4 1 ++ (value ++
    (IndexEntry.writeTo ⟨7, 0, 20 + value.length⟩ ++ (toLE 4 1 ++ (toLE 1 255 ++
      SSTableFooter.write ⟨20 + value.length, 20, 40 + value.length, 5, 1, SSTableFooter.VERSION,
        SSTableFooter.MAGIC⟩)))))))

theorem bounds_oneEntryTable : InBounds copied (fun _ _ => 0) "1.sst" (oneEntryTable [9]) := by
  refine (bounds_iff copied (fun _ _ => 0) "1.sst" (oneEntryTable [9]) (by decide)).mpr ⟨?_, fun r hr => ?_⟩
  · exact fun _ _ _ => ⟨.inr (by decide), fun _ => .inr (by decide)⟩
  · obtain rfl := Except.ok.inj hr
    refine allFits_of_blocks copied _ (.inl (by decide)) fun e he => ?_
    obtain rfl := List.mem_singleton.mp he
    refine ⟨fun _ => .inr (by decide), fun b hb => ?_⟩
    obtain rfl := Except.ok.inj hb
    exact fun _ => (by decide : 4 + 8 + 4 + 1 ≤ 17)

/-- A table without entries: a filter that has neither bits nor hash functions, and
the footer. -/
def emptyTable (numHashFuncs indexOffset indexSize : ℕ) : Bytes :=
  toLE 4 numHashFuncs ++
    SSTableFooter.write ⟨indexOffset, indexSize, 0, 4, 0, SSTableFooter.VERSION, SSTableFooter.MAGIC⟩

/-- A filter with a hash function and no bits, an index whose end wraps around, and a
last value that is cut. -/
theorem not_bounds : ¬ InBounds copied (fun _ _ => 0) "1.sst" (emptyTable 1 4 0) ∧
    ¬ InBounds copied (fun _ _ => 0) "1.sst" (emptyTable 0 (2 ^ 64 - 20) 20) ∧
    ¬ InBounds copied (fun _ _ => 0) "1.sst" (oneEntryTable []) := by
  refine ⟨fun h => ?_, fun h => ?_, fun h => ?_⟩
  · exact absurd ((h.2 _ rfl).1 0) (by decide)
  · exact absurd h.1 (by decide)
  · exact absurd (h.2 _ rfl).2.2.1 (by decide)

end Bounded
end Lsm
end Amind
