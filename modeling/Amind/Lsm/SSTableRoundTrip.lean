/-
# Tables are read back from their files

A file that was written is read back whole: lookups, scans, walks and cursors
give the entries it was written for. But the sizes of the index and of the
filter are kept in 32 bits. `roundTrips_iff` says that this is all that can go
wrong: the blocks from number 214748365 on are not found, and a filter of more
than 4 GiB is cut.
-/
import Amind.Lsm.SSTable
import Amind.Lsm.SSTableLayout
import Mathlib.Data.List.Forall2

namespace Amind
namespace Lsm

open LittleEndian

/-! ### Blocks with ascending keys -/

/-- Blocks as they are cut from ascending entries. -/
structure Blocks (bs : List (List (Key × Bytes))) : Prop where
  ne_nil : ∀ b ∈ bs, b ≠ []
  ascending : ∀ b ∈ bs, Keyed.Ascending b
  apart : bs.Pairwise fun a b => ∀ x ∈ a, ∀ y ∈ b, x.1 < y.1

theorem blocks_of_flatten {bs : List (List (Key × Bytes))} (h : Keyed.Ascending bs.flatten) (hne : ∀ b ∈ bs, b ≠ []) :
    Blocks bs :=
  have hp := List.pairwise_flatten.mp h
  ⟨hne, hp.1, hp.2⟩

theorem firstKey_mem {b : List (Key × Bytes)} (h : b ≠ []) : ∃ v, (firstKey b, v) ∈ b := by
  cases b with
  | nil => exact absurd rfl h
  | cons e b => exact ⟨e.2, List.mem_cons_self⟩

theorem firstKey_le {b : List (Key × Bytes)} (h : Keyed.Ascending b) {e : Key × Bytes} (he : e ∈ b) :
    firstKey b ≤ e.1 := by
  cases b with
  | nil => exact absurd he List.not_mem_nil
  | cons e' b => exact h.head_le e he

namespace Blocks

variable {bs : List (List (Key × Bytes))}

theorem tail {b : List (Key × Bytes)} (h : Blocks (b :: bs)) : Blocks bs :=
  ⟨fun x hx => h.ne_nil x (List.mem_cons_of_mem _ hx), fun x hx => h.ascending x (List.mem_cons_of_mem _ hx),
    h.apart.of_cons⟩

theorem drop (h : Blocks bs) (n : ℕ) : Blocks (bs.drop n) :=
  ⟨fun x hx => h.ne_nil x (List.mem_of_mem_drop hx), fun x hx => h.ascending x (List.mem_of_mem_drop hx),
    h.apart.sublist (List.drop_sublist n bs)⟩

theorem take (h : Blocks bs) (n : ℕ) : Blocks (bs.take n) :=
  ⟨fun x hx => h.ne_nil x (List.mem_of_mem_take hx), fun x hx => h.ascending x (List.mem_of_mem_take hx),
    h.apart.sublist (List.take_sublist n bs)⟩

/-- The entries before a block are below its first key. -/
theorem lt_firstKey (h : Blocks bs) {i j : ℕ} (hij : i < j) (hj : j < bs.length) {e : Key × Bytes}
    (he : e ∈ bs[i]) : e.1 < firstKey bs[j] := by
  obtain ⟨v, hv⟩ := firstKey_mem (h.ne_nil bs[j] (List.getElem_mem hj))
  exact List.pairwise_iff_getElem.mp h.apart i j _ hj hij e he _ hv

/-- The entries of the blocks before one are below its first key. -/
theorem lt_of_mem_take (h : Blocks bs) {i : ℕ} (hi : i < bs.length) {e : Key × Bytes} (he : e ∈ (bs.take i).flatten) :
    e.1 < firstKey bs[i] := by
  obtain ⟨b, hb, heb⟩ := List.mem_flatten.mp he
  obtain ⟨j, hj, rfl⟩ := List.mem_iff_getElem.mp hb
  rw [List.getElem_take] at heb
  rw [List.length_take] at hj
  exact h.lt_firstKey (by omega) hi heb

/-- The key can only be in the last block that does not start above it. -/
theorem lookup_flatten (h : Blocks bs) {i : ℕ} (hi : i < bs.length) {k : Key} (hle : firstKey bs[i] ≤ k)
    (hlt : ∀ j (hj : j < bs.length), i < j → k < firstKey bs[j]) : bs.flatten.lookup k = bs[i].lookup k := by
  have hsplit : bs.flatten = (bs.take i).flatten ++ (bs[i] ++ (bs.drop (i + 1)).flatten) := by
    rw [← List.flatten_cons, List.getElem_cons_drop, ← List.flatten_append, List.take_append_drop]
  have hbefore : (bs.take i).flatten.lookup k = none := by
    rw [List.lookup_eq_none_iff]
    intro e he
    simpa using (lt_of_lt_of_le (h.lt_of_mem_take hi he) hle).ne'
  have hafter : (bs.drop (i + 1)).flatten.lookup k = none := by
    refine Keyed.lookup_none_of_lt fun e he => ?_
    obtain ⟨b, hb, heb⟩ := List.mem_flatten.mp he
    obtain ⟨j, hj, rfl⟩ := List.mem_iff_getElem.mp hb
    rw [List.length_drop] at hj
    rw [List.getElem_drop] at heb
    exact lt_of_lt_of_le (hlt (i + 1 + j) (by omega) (by omega))
      (firstKey_le (h.ascending _ (List.getElem_mem _)) heb)
  rw [hsplit, List.lookup_append, List.lookup_append, hbefore, hafter, Option.or_none, Option.none_or]

end Blocks

/-! ### A reader of blocks -/

section Reading

variable {lz : Lz4} {hash : Key → UInt64 → UInt64} {r : SSTableReader} {bs : List (List (Key × Bytes))}

/-- The entry of the index is that of the block. -/
def Reads (lz : Lz4) (r : SSTableReader) (e : IndexEntry) (b : List (Key × Bytes)) : Prop :=
  e.firstKey = firstKey b ∧ ∃ block, r.readBlock lz e = .ok block ∧ block.Has b

/-- The blocks are read from where the index says. -/
theorem reads_indexFrom (hlz : lz.Lawful) (hlen : r.data.length ≤ VECTOR_MAX_SIZE) : ∀ (bs : List (List (Key × Bytes)))
    (pre post : Bytes), r.data = pre ++ dataBytes lz bs ++ post → Readable bs →
    List.Forall₂ (Reads lz r) (indexFrom lz pre.length bs) bs
  | [], _, _, _, _ => .nil
  | b :: bs, pre, post, hdata, hread => by
    have hb := hread b List.mem_cons_self
    obtain ⟨hpos, hsmall⟩ := length_encodeBlock hlz hb
    have hcons : dataBytes lz (b :: bs) = encodeBlock lz b ++ dataBytes lz bs := List.flatMap_cons
    have hsplit : r.data = (pre ++ encodeBlock lz b) ++ dataBytes lz bs ++ post := by
      rw [hdata, hcons]
      simp only [List.append_assoc]
    have hlong := congrArg List.length hsplit
    simp only [List.length_append] at hlong
    have hmax : VECTOR_MAX_SIZE = 2 ^ 63 - 1 := rfl
    have hmod : (encodeBlock lz b).length % 2 ^ 32 = (encodeBlock lz b).length := Nat.mod_eq_of_lt (by omega)
    have hslice : slice r.data pre.length (encodeBlock lz b).length = encodeBlock lz b := by
      refine slice_eq ⟨dataBytes lz bs ++ post, ?_⟩ rfl rfl
      rw [hsplit]
      simp only [List.append_assoc]
    obtain ⟨block, hblock, hhas⟩ := reader_encodeBlock hlz hb
    have ih := reads_indexFrom hlz hlen bs (pre ++ encodeBlock lz b) post hsplit fun x hx =>
      hread x (List.mem_cons_of_mem _ hx)
    rw [List.length_append] at ih
    refine .cons ⟨rfl, block, ?_, hhas⟩ ih
    rw [SSTableReader.readBlock]
    dsimp only
    rw [hmod, Nat.mod_eq_of_lt (by omega), if_neg (by omega), hslice, hblock]

/-- The entries of a block, by their indices. -/
theorem BlockReader.Has.entries {block : BlockReader} {b : List (Key × Bytes)} (h : block.Has b) :
    List.Forall₂ (fun i e => block.entryAt i = .ok e) (List.range block.entryCount) b := by
  refine List.forall₂_iff_get.mpr ⟨by rw [List.length_range, h.count], fun i hi hib => ?_⟩
  rw [List.get_eq_getElem, List.get_eq_getElem, List.getElem_range]
  exact h.entryAt i _ (List.getElem?_eq_getElem hib)

theorem eachEntry_eq {block : BlockReader} : ∀ {is : List ℕ} {es : List (Key × Bytes)},
    List.Forall₂ (fun i e => block.entryAt i = .ok e) is es → SSTableReader.eachEntry block is = (es, .next)
  | [], _, .nil => rfl
  | _ :: _, _, .cons h hs => by rw [SSTableReader.eachEntry, h, eachEntry_eq hs]

theorem eachBlock_eq : ∀ {es : List IndexEntry} {bs : List (List (Key × Bytes))},
    List.Forall₂ (Reads lz r) es bs → r.eachBlock lz es = (bs.flatten, .done)
  | [], _, .nil => rfl
  | _ :: _, _, .cons ⟨_, block, hblock, hhas⟩ hs => by
    rw [SSTableReader.eachBlock, hblock]
    dsimp only
    rw [eachEntry_eq hhas.entries, eachBlock_eq hs]
    rfl

/-- The keys of a scan. -/
def inRange (lo hi : Key) (e : Key × Bytes) : Bool := lo ≤ e.1 ∧ e.1 ≤ hi

theorem filter_above {lo hi : Key} {es : List (Key × Bytes)} (h : ∀ e ∈ es, hi < e.1) :
    es.filter (inRange lo hi) = [] :=
  List.filter_eq_nil_iff.mpr fun e he hin => absurd (of_decide_eq_true hin).2 (not_le.mpr (h e he))

/-- The scan of a block stops at a key above the range. -/
theorem scanEntries_eq {block : BlockReader} (lo hi : Key) : ∀ {is : List ℕ} {es : List (Key × Bytes)},
    List.Forall₂ (fun i e => block.entryAt i = .ok e) is es → Keyed.Ascending es →
    SSTableReader.scanEntries block lo hi is = (es.filter (inRange lo hi), .next) ∧ (∀ e ∈ es, e.1 ≤ hi) ∨
      SSTableReader.scanEntries block lo hi is = (es.filter (inRange lo hi), .done) ∧ ∃ e ∈ es, hi < e.1
  | [], _, .nil, _ => .inl ⟨rfl, fun _ h => absurd h List.not_mem_nil⟩
  | i :: is, e :: es, .cons h hs, hasc => by
    rw [SSTableReader.scanEntries, h]
    dsimp only
    by_cases hhi : hi < e.1
    · rw [if_pos hhi, filter_above fun x hx => lt_of_lt_of_le hhi (hasc.head_le x hx)]
      exact .inr ⟨rfl, e, List.mem_cons_self, hhi⟩
    · have hfilter : (e :: es).filter (inRange lo hi) =
          if lo ≤ e.1 then e :: es.filter (inRange lo hi) else es.filter (inRange lo hi) := by
        rw [List.filter_cons]
        refine if_congr ?_ rfl rfl
        rw [inRange, decide_eq_true_iff]
        exact and_iff_left (not_lt.mp hhi)
      rw [if_neg hhi, hfilter]
      rcases scanEntries_eq lo hi hs hasc.tail with ⟨hscan, hle⟩ | ⟨hscan, x, hx, hlt⟩
      · rw [hscan]
        exact .inl ⟨rfl, List.forall_mem_cons.mpr ⟨not_lt.mp hhi, hle⟩⟩
      · rw [hscan]
        exact .inr ⟨rfl, x, List.mem_cons_of_mem _ hx, hlt⟩

theorem scanBlocks_eq (lo hi : Key) : ∀ {es : List IndexEntry} {bs : List (List (Key × Bytes))},
    List.Forall₂ (Reads lz r) es bs → Blocks bs →
    r.scanBlocks lz lo hi es = (bs.flatten.filter (inRange lo hi), .done)
  | [], _, .nil, _ => rfl
  | e :: _, b :: bs, .cons ⟨hfirst, block, hblock, hhas⟩ hs, h => by
    have hb := h.ascending b List.mem_cons_self
    have hlater : ∀ x ∈ b, ∀ y ∈ bs.flatten, x.1 < y.1 := by
      intro x hx y hy
      obtain ⟨b', hb', hy⟩ := List.mem_flatten.mp hy
      exact (List.pairwise_cons.mp h.apart).1 b' hb' x hx y hy
    rw [SSTableReader.scanBlocks, List.flatten_cons, List.filter_append]
    by_cases hhi : hi < e.firstKey
    · rw [if_pos hhi]
      rw [hfirst] at hhi
      obtain ⟨v, hv⟩ := firstKey_mem (h.ne_nil b List.mem_cons_self)
      rw [filter_above fun x hx => lt_of_lt_of_le hhi (firstKey_le hb hx),
        filter_above fun y hy => hhi.trans (hlater _ hv y hy)]
      rfl
    · rw [if_neg hhi, hblock]
      dsimp only
      rcases scanEntries_eq lo hi hhas.entries hb with ⟨hscan, -⟩ | ⟨hscan, x, hx, hlt⟩
      · rw [hscan, scanBlocks_eq lo hi hs h.tail]
      · rw [hscan, filter_above fun y hy => hlt.trans (hlater x hx y hy), List.append_nil]

/-- A reader with the blocks. -/
structure SSTableReader.Holds (lz : Lz4) (r : SSTableReader) (bs : List (List (Key × Bytes))) : Prop where
  reads : List.Forall₂ (Reads lz r) r.indexEntries bs
  blocks : Blocks bs

namespace SSTableReader.Holds

variable (h : r.Holds lz bs)

include h

theorem length : r.indexEntries.length = bs.length := h.reads.length_eq

theorem reads_getD {i : ℕ} (hi : i < bs.length) : Reads lz r (r.indexEntries.getD i default) bs[i] := by
  have hi' : i < r.indexEntries.length := h.length ▸ hi
  rw [List.getD_eq_getElem?_getD, List.getElem?_eq_getElem hi']
  exact h.reads.get hi' hi

theorem firstKeyAt {i : ℕ} (hi : i < bs.length) : r.firstKeyAt i = firstKey bs[i] := (h.reads_getD hi).1

/-- The search in the index: the blocks up to the answer are those that do not
start above the key. -/
theorem findBlockIndex (key : Key) : -1 ≤ r.findBlockIndex key ∧ r.findBlockIndex key < bs.length ∧
    ∀ i (hi : i < bs.length), firstKey bs[i] ≤ key ↔ (i : ℤ) ≤ r.findBlockIndex key := by
  have hasc : Bisect.Ascends r.firstKeyAt bs.length := by
    intro i j hij hj
    have hi : i < bs.length := hij.trans hj
    rw [h.firstKeyAt hi, h.firstKeyAt hj]
    obtain ⟨v, hv⟩ := firstKey_mem (h.blocks.ne_nil _ (List.getElem_mem hi))
    exact h.blocks.lt_firstKey hij hj hv
  unfold SSTableReader.findBlockIndex
  rw [h.length]
  by_cases hnil : r.indexEntries = []
  · have hzero : bs.length = 0 := by rw [← h.length, hnil]; rfl
    rw [if_pos hnil]
    exact ⟨le_rfl, by omega, fun i hi => by omega⟩
  · rw [if_neg hnil]
    obtain ⟨hge, hlt, hiff⟩ := Bisect.lastLe_spec (k := key) hasc bs.length 0 ((bs.length : ℤ) - 1) (.start _) (by omega)
      (by omega)
    refine ⟨hge, hlt, fun i hi => ?_⟩
    rw [← h.firstKeyAt hi]
    exact hiff i hi

/-- A lookup, once the filter lets the key through. -/
theorem get {key : Key} (hmay : r.bloomFilter.mayContain hash key = .ok true) :
    r.get lz hash key = .ok (bs.flatten.lookup key) := by
  obtain ⟨hge, hlt, hiff⟩ := h.findBlockIndex key
  unfold SSTableReader.get
  rw [hmay, ok_bind, if_neg (by decide)]
  dsimp only
  by_cases hneg : r.findBlockIndex key < 0
  · rw [if_pos hneg]
    have hnone : bs.flatten.lookup key = none := by
      refine Keyed.lookup_none_of_lt fun e he => ?_
      obtain ⟨b, hb, heb⟩ := List.mem_flatten.mp he
      obtain ⟨i, hi, rfl⟩ := List.mem_iff_getElem.mp hb
      have habove : key < firstKey bs[i] := not_le.mp fun hle => by
        have := (hiff i hi).mp hle
        omega
      exact lt_of_lt_of_le habove (firstKey_le (h.blocks.ascending _ hb) heb)
    rw [hnone]
  · obtain ⟨i, hi⟩ : ∃ i : ℕ, r.findBlockIndex key = i := ⟨(r.findBlockIndex key).toNat, by omega⟩
    have hib : i < bs.length := by omega
    obtain ⟨-, block, hblock, hhas⟩ := h.reads_getD hib
    have hlookup : bs.flatten.lookup key = bs[i].lookup key := by
      refine h.blocks.lookup_flatten hib ((hiff i hib).mpr (by omega)) fun j hj hij => not_le.mp fun hle => ?_
      have := (hiff j hj).mp hle
      omega
    rw [if_neg hneg, hi, Int.toNat_natCast, hblock, ok_bind, hlookup]
    rcases hhas.findKey (h.blocks.ascending _ (List.getElem_mem hib)) key with ⟨hfind, hnone⟩ | ⟨j, v, hfind,
      hentry, hsome⟩
    · rw [hfind, if_pos (by decide), hnone]
    · rw [hfind, if_neg (by omega), Int.toNat_natCast, hentry, ok_bind, hsome]

theorem scan (lo hi : Key) : r.scan lz lo hi = (bs.flatten.filter (inRange lo hi), .done) := by
  obtain ⟨hge, hlt, hiff⟩ := h.findBlockIndex lo
  unfold SSTableReader.scan
  by_cases hnil : r.indexEntries = []
  · have hzero : bs = [] := List.length_eq_zero_iff.mp (by rw [← h.length, hnil]; rfl)
    rw [if_pos (.inl hnil), hzero]
    rfl
  by_cases hempty : hi < lo
  · rw [if_pos (.inr hempty)]
    have hfilter : bs.flatten.filter (inRange lo hi) = [] := by
      refine List.filter_eq_nil_iff.mpr fun e _ hin => ?_
      obtain ⟨h₁, h₂⟩ := of_decide_eq_true hin
      exact absurd (h₁.trans h₂) (not_le.mpr hempty)
    rw [hfilter]
  rw [if_neg (by tauto)]
  generalize hs : (r.findBlockIndex lo).toNat = start
  rw [scanBlocks_eq lo hi (List.forall₂_drop start h.reads) (h.blocks.drop start)]
  -- the blocks before the first one that is read end below the range
  have hbefore : (bs.take start).flatten.filter (inRange lo hi) = [] := by
    refine List.filter_eq_nil_iff.mpr fun e he hin => ?_
    have hpos : 0 < start := by
      rcases Nat.eq_zero_or_pos start with h0 | h0
      · rw [h0] at he
        exact absurd he List.not_mem_nil
      · exact h0
    have hstart : start < bs.length := by omega
    have hle := (hiff start hstart).mpr (by omega)
    exact absurd (of_decide_eq_true hin).1 (not_le.mpr (lt_of_lt_of_le (h.blocks.lt_of_mem_take hstart he) hle))
  have hsplit : bs.flatten = (bs.take start).flatten ++ (bs.drop start).flatten := by
    rw [← List.flatten_append, List.take_append_drop]
  rw [hsplit, List.filter_append, hbefore, List.nil_append]

end SSTableReader.Holds

/-! ### Cursors -/

/-- The cursor stands at the entry with the index. -/
structure Stands (r : SSTableReader) (bs : List (List (Key × Bytes))) (c : SSTableCursor) (n : ℕ) : Prop where
  reader : c.reader = some r
  valid : c.valid = true
  at' : ∃ b block, bs[c.blockIdx]? = some b ∧ c.currentBlock = some block ∧ block.Has b ∧
    b[c.entryIdx]? = some c.current ∧ n = (bs.take c.blockIdx).flatten.length + c.entryIdx

theorem flatten_split {i : ℕ} {b : List (Key × Bytes)} (h : bs[i]? = some b) :
    bs.flatten = (bs.take i).flatten ++ (b ++ (bs.drop (i + 1)).flatten) := by
  obtain ⟨hi, rfl⟩ := List.getElem?_eq_some_iff.mp h
  rw [← List.flatten_cons, List.getElem_cons_drop, ← List.flatten_append, List.take_append_drop]

theorem length_take_succ {i : ℕ} {b : List (Key × Bytes)} (h : bs[i]? = some b) :
    (bs.take (i + 1)).flatten.length = (bs.take i).flatten.length + b.length := by
  rw [List.take_add_one, h, List.flatten_append, List.length_append]
  simp

theorem Stands.current {c : SSTableCursor} {n : ℕ} (h : Stands r bs c n) : bs.flatten[n]? = some c.current := by
  obtain ⟨b, block, hb, -, -, hcur, rfl⟩ := h.at'
  obtain ⟨hlt, -⟩ := List.getElem?_eq_some_iff.mp hcur
  rw [flatten_split hb, List.getElem?_append_right (Nat.le_add_right _ _), Nat.add_sub_cancel_left,
    List.getElem?_append_left hlt, hcur]

/-- The first entry of a block. -/
theorem SSTableReader.Holds.loadCurrentEntry (h : r.Holds lz bs) {c : SSTableCursor} (hr : c.reader = some r)
    (hi : c.blockIdx < bs.length) (he : c.entryIdx = 0) :
    ∃ c', c.loadCurrentEntry lz = .ok c' ∧ Stands r bs c' (bs.take c.blockIdx).flatten.length := by
  obtain ⟨-, block, hblock, hhas⟩ := h.reads_getD hi
  have hi' : c.blockIdx < r.indexEntries.length := h.length ▸ hi
  rw [List.getD_eq_getElem?_getD, List.getElem?_eq_getElem hi', Option.getD_some] at hblock
  have hne := h.blocks.ne_nil _ (List.getElem_mem hi)
  obtain ⟨e, b, hcons⟩ := List.exists_cons_of_ne_nil hne
  have hzero : bs[c.blockIdx][0]? = some e := by rw [hcons]; rfl
  have hcount : ¬ block.entryCount ≤ 0 := by rw [hhas.count, hcons]; simp
  refine ⟨{ c with currentBlock := some block, current := e, valid := true }, ?_, hr, rfl, bs[c.blockIdx], block,
    List.getElem?_eq_getElem hi, rfl, hhas, ?_, ?_⟩
  · unfold SSTableCursor.loadCurrentEntry
    rw [hr]
    dsimp only
    rw [List.getElem?_eq_getElem hi']
    dsimp only
    rw [hblock, ok_bind, he, if_neg hcount, hhas.entryAt 0 e hzero, ok_bind]
  · show bs[c.blockIdx][c.entryIdx]? = some e
    rw [he, hzero]
  · show _ = _ + c.entryIdx
    rw [he, Nat.add_zero]

/-- A step of a cursor: to the next entry, or off the end. -/
theorem SSTableReader.Holds.next (h : r.Holds lz bs) {c : SSTableCursor} {n : ℕ} (hc : Stands r bs c n) :
    ∃ c', c.next lz = .ok c' ∧ (Stands r bs c' (n + 1) ∨ bs.flatten.length ≤ n + 1 ∧ c'.valid = false) := by
  obtain ⟨b, block, hb, hblock, hhas, hcur, rfl⟩ := hc.at'
  obtain ⟨hlt, -⟩ := List.getElem?_eq_some_iff.mp hcur
  unfold SSTableCursor.next
  rw [if_neg (by rw [hc.valid]; decide)]
  dsimp only
  rw [hblock]
  dsimp only
  rw [hhas.count]
  by_cases hmore : c.entryIdx + 1 < b.length
  · have hget : b[c.entryIdx + 1]? = some b[c.entryIdx + 1] := List.getElem?_eq_getElem hmore
    rw [if_pos hmore, hhas.entryAt _ _ hget, ok_bind]
    exact ⟨_, rfl, .inl ⟨hc.reader, hc.valid, b, block, hb, rfl, hhas, hget, rfl⟩⟩
  · rw [if_neg hmore]
    have hend : (bs.take (c.blockIdx + 1)).flatten.length = (bs.take c.blockIdx).flatten.length + c.entryIdx + 1 := by
      rw [length_take_succ hb]
      omega
    unfold SSTableCursor.nextBlock
    dsimp only
    rw [hc.reader]
    dsimp only
    rw [h.length]
    by_cases hlast : bs.length ≤ c.blockIdx + 1
    · rw [if_pos hlast]
      refine ⟨_, rfl, .inr ⟨?_, rfl⟩⟩
      rw [← hend, List.take_of_length_le hlast]
    · rw [if_neg hlast]
      obtain ⟨c', hc', hstands⟩ := h.loadCurrentEntry
        (c := { c with reader := some r, blockIdx := c.blockIdx + 1, entryIdx := 0, currentBlock := none }) rfl
        (Nat.not_le.mp hlast) rfl
      rw [hend] at hstands
      exact ⟨c', hc', .inl hstands⟩

/-- The cursor after `n` steps. -/
theorem SSTableReader.Holds.cursorAt (h : r.Holds lz bs) : ∀ n : ℕ, ∃ c, r.cursorAt lz n = .ok c ∧
    (Stands r bs c n ∨ bs.flatten.length ≤ n ∧ c.valid = false)
  | 0 => by
    rw [SSTableReader.cursorAt, SSTableReader.cursor]
    by_cases hnil : r.indexEntries = []
    · have hzero : bs = [] := List.length_eq_zero_iff.mp (by rw [← h.length, hnil]; rfl)
      rw [if_pos hnil, hzero]
      exact ⟨_, rfl, .inr ⟨le_rfl, rfl⟩⟩
    · have hpos : 0 < bs.length := h.length ▸ List.length_pos_of_ne_nil hnil
      rw [if_neg hnil]
      obtain ⟨c, hc, hstands⟩ := h.loadCurrentEntry (c := ⟨some r, 0, 0, false, (0, []), none⟩) rfl hpos rfl
      exact ⟨c, hc, .inl hstands⟩
  | n + 1 => by
    obtain ⟨c, hc, hat⟩ := h.cursorAt n
    rw [SSTableReader.cursorAt, hc, ok_bind]
    rcases hat with hstands | ⟨hlen, hinvalid⟩
    · exact h.next hstands
    · refine ⟨c, ?_, .inr ⟨by omega, hinvalid⟩⟩
      rw [SSTableCursor.next, if_pos hinvalid]

end Reading

/-! ### The round trip -/

section RoundTrip

variable (lz : Lz4) (hash : Key → UInt64 → UInt64) (expected : UInt64) (path : String) (entries : List (Key × Bytes))

/-- The file of the entries is accepted, and everything that is read from it is
what they say. -/
def RoundTrips : Prop :=
  ∃ file r, SSTableWriter.write lz hash expected entries = .ok file ∧ SSTableReader.load path file = .ok r ∧
    (∀ key, r.get lz hash key = .ok (entries.lookup key)) ∧
    (∀ lo hi, r.scan lz lo hi = (entries.filter (inRange lo hi), .done)) ∧
    r.forEach lz = (entries, .done) ∧
    ∀ n, ∃ c, r.cursorAt lz n = .ok c ∧ c.valid = decide (n < entries.length) ∧
      ∀ e, entries[n]? = some e → c.current = e

/-- The filter that is left once it is cut to the low 32 bits of its size. -/
def cutFilter : Except Exn BloomFilter :=
  BloomFilter.deserialize ((filterOf hash expected entries).serialize.take (filterSize expected % 2 ^ 32))

/-- The index is shorter than 4 GiB; and the filter has a byte, and is shorter
than that too, or has the bits of the keys also where it is cut. -/
def SizesFit : Prop :=
  20 * (dataBlocks entries).length < 2 ^ 32 ∧ 4 < filterSize expected % 2 ^ 32 ∧
    (filterSize expected < 2 ^ 32 ∨
      ∃ f, cutFilter hash expected entries = .ok f ∧ ∀ e ∈ entries, f.mayContain hash e.1 = .ok true)

variable {lz hash expected path entries}

theorem length_dataBytes (hlz : lz.Lawful) : ∀ (bs : List (List (Key × Bytes))), Readable bs →
    (dataBytes lz bs).length ≤ 2 ^ 27 * bs.length
  | [], _ => le_rfl
  | b :: bs, h => by
    have ih := length_dataBytes hlz bs fun x hx => h x (List.mem_cons_of_mem _ hx)
    have hb := (length_encodeBlock hlz (h b List.mem_cons_self)).2
    have hcons : dataBytes lz (b :: bs) = encodeBlock lz b ++ dataBytes lz bs := List.flatMap_cons
    rw [hcons, List.length_append, List.length_cons]
    omega

theorem bitsFor_lt (expected : UInt64) : BloomFilter.bitsFor expected < 2 ^ 64 := by
  unfold BloomFilter.bitsFor
  omega

/-- A filter with a byte at least. -/
theorem deserialize_pos {data : Bytes} (h : 4 < data.length) :
    ∃ f, BloomFilter.deserialize data = .ok f ∧ 0 < f.numBits := by
  refine ⟨_, if_neg (by omega), ?_⟩
  show 0 < (data.drop 4).length * 8
  rw [List.length_drop]
  omega

/-- A table whose sizes fit is written. -/
theorem write_of_sizesFit (hlz : lz.Lawful) (hasc : Keyed.Ascending entries) (hread : Readable (dataBlocks entries))
    (hfit : SizesFit hash expected entries) :
    SSTableWriter.write lz hash expected entries = .ok (tableFile lz hash expected entries) ∧
      (tableFile lz hash expected entries).length ≤ VECTOR_MAX_SIZE := by
  obtain ⟨hindex, hfilter, -⟩ := hfit
  have hlength := length_tableFile lz hash expected entries
  have hdata := length_dataBytes hlz _ hread
  have hbits := bitsFor_lt expected
  have hmax : VECTOR_MAX_SIZE = 2 ^ 63 - 1 := rfl
  have hsize : filterSize expected = 4 + BloomFilter.bitsFor expected / 8 := rfl
  rcases write_spec hlz hasc hread with hok | ⟨-, ⟨hzero, -⟩ | hlong⟩
  · exact hok
  · rw [hsize, hzero] at hfilter
    exact absurd hfilter (by decide)
  · omega

/-- A reader of a file that was written has the blocks its index counts. -/
theorem holds_load (hlz : lz.Lawful) (hasc : Keyed.Ascending entries) (hread : Readable (dataBlocks entries))
    (hlen : (tableFile lz hash expected entries).length ≤ VECTOR_MAX_SIZE) {r : SSTableReader}
    (hr : SSTableReader.load path (tableFile lz hash expected entries) = .ok r) :
    cutFilter hash expected entries = .ok r.bloomFilter ∧
      r.Holds lz ((dataBlocks entries).take (20 * (dataBlocks entries).length % 2 ^ 32 / 20)) := by
  rw [load_tableFile hlen] at hr
  unfold cutFilter
  generalize hn : 20 * (dataBlocks entries).length % 2 ^ 32 / 20 = n at hr
  cases hf : BloomFilter.deserialize
      ((filterOf hash expected entries).serialize.take (filterSize expected % 2 ^ 32)) with
  | error e =>
    rw [hf] at hr
    cases hr
  | ok f =>
    rw [hf] at hr
    have hblocks : Blocks (dataBlocks entries) :=
      blocks_of_flatten (by rwa [flatten_dataBlocks]) (ne_nil_of_mem_cutBlocks entries [])
    have hsplit : tableFile lz hash expected entries = [] ++ dataBytes lz ((dataBlocks entries).take n) ++
        (dataBytes lz ((dataBlocks entries).drop n) ++ indexBytes lz (dataBlocks entries) ++
          (filterOf hash expected entries).serialize ++ (footerOf lz expected entries).write) := by
      have hall : dataBytes lz (dataBlocks entries) =
          dataBytes lz ((dataBlocks entries).take n) ++ dataBytes lz ((dataBlocks entries).drop n) := by
        rw [dataBytes, dataBytes, dataBytes, ← List.flatMap_append, List.take_append_drop]
      rw [tableFile, hall]
      simp only [List.append_assoc, List.nil_append]
    cases hr
    exact ⟨rfl, reads_indexFrom hlz hlen _ [] _ hsplit fun b hb => hread b (List.mem_of_mem_take hb), hblocks.take n⟩

/-- A lookup, if the filter lets all the keys through. -/
theorem SSTableReader.Holds.get_eq {r : SSTableReader} {bs : List (List (Key × Bytes))} (h : r.Holds lz bs)
    (hpos : 0 < r.bloomFilter.numBits) (hmay : ∀ e ∈ bs.flatten, r.bloomFilter.mayContain hash e.1 = .ok true)
    (key : Key) : r.get lz hash key = .ok (bs.flatten.lookup key) := by
  cases hc : (r.bloomFilter.bitIndices hash key).all (BloomFilter.testBit r.bloomFilter.bits) with
  | true => exact h.get (by rw [BloomFilter.mayContain_eq hpos, hc])
  | false =>
    have hfalse : r.bloomFilter.mayContain hash key = .ok false := by rw [BloomFilter.mayContain_eq hpos, hc]
    have hnone : bs.flatten.lookup key = none := by
      refine List.lookup_eq_none_iff.mpr fun e he => ?_
      have hne : key ≠ e.1 := fun heq => by
        rw [heq, hmay e he] at hfalse
        cases hfalse
      simpa using hne
    rw [SSTableReader.get, hfalse, ok_bind, if_pos rfl, hnone]

theorem roundTrips_of_sizesFit (hlz : lz.Lawful) (hasc : Keyed.Ascending entries)
    (hread : Readable (dataBlocks entries))
    (hfit : SizesFit hash expected entries) : RoundTrips lz hash expected path entries := by
  obtain ⟨hwrite, hlen⟩ := write_of_sizesFit hlz hasc hread hfit
  obtain ⟨hindex, hpos, hfilter⟩ := hfit
  have hflat := flatten_dataBlocks entries
  have hserial := length_filterOf hash expected entries
  have hle := Nat.mod_le (filterSize expected) (2 ^ 32)
  have hlong : 4 < ((filterOf hash expected entries).serialize.take (filterSize expected % 2 ^ 32)).length := by
    rw [List.length_take, hserial]
    omega
  obtain ⟨f, hf, hbits⟩ := deserialize_pos hlong
  have hmay : ∀ e ∈ entries, f.mayContain hash e.1 = .ok true := by
    rcases hfilter with hsmall | ⟨f', hf', hmay⟩
    · have hfilled : BloomFilter.Filled hash expected _ _ := BloomFilter.filled_ofKeys (entries.map (·.1))
      have hwhole : f = filterOf hash expected entries := by
        rw [Nat.mod_eq_of_lt hsmall, ← hserial, List.take_length, filterOf, hfilled.deserialize_serialize] at hf
        exact (Except.ok.inj hf).symm
      have hpos' : 0 < BloomFilter.bitsFor expected := by
        have hsize : filterSize expected = 4 + BloomFilter.bitsFor expected / 8 := rfl
        omega
      intro e he
      rw [hwhole]
      exact hfilled.mayContain hpos' (List.mem_map_of_mem he)
    · have hsame : f' = f := Except.ok.inj (hf'.symm.trans hf)
      exact hsame ▸ hmay
  obtain ⟨r, hload, rfl⟩ : ∃ r, SSTableReader.load path (tableFile lz hash expected entries) = .ok r ∧
      r.bloomFilter = f := by
    rw [load_tableFile hlen, hf]
    exact ⟨_, rfl, rfl⟩
  obtain ⟨-, hholds⟩ := holds_load hlz hasc hread hlen hload
  have hall : (dataBlocks entries).take (20 * (dataBlocks entries).length % 2 ^ 32 / 20) = dataBlocks entries :=
    List.take_of_length_le (by rw [Nat.mod_eq_of_lt hindex]; omega)
  rw [hall] at hholds
  refine ⟨_, r, hwrite, hload, fun key => ?_, fun lo hi => ?_, ?_, fun n => ?_⟩
  · rw [hholds.get_eq hbits (by rw [hflat]; exact hmay), hflat]
  · rw [hholds.scan, hflat]
  · rw [SSTableReader.forEach, eachBlock_eq hholds.reads, hflat]
  · obtain ⟨c, hc, hstands | ⟨hge, hinvalid⟩⟩ := hholds.cursorAt n
    · have hcur := hstands.current
      rw [hflat] at hcur
      obtain ⟨hlt, -⟩ := List.getElem?_eq_some_iff.mp hcur
      refine ⟨c, hc, by rw [hstands.valid, decide_eq_true hlt], fun e he => ?_⟩
      exact Option.some.inj (hcur.symm.trans he)
    · rw [hflat] at hge
      refine ⟨c, hc, by rw [hinvalid, decide_eq_false (Nat.not_lt.mpr hge)], fun e he => ?_⟩
      rw [List.getElem?_eq_none hge] at he
      cases he

theorem length_le_of_flatten_take {bs : List (List (Key × Bytes))} {n : ℕ} (hne : ∀ b ∈ bs, b ≠ [])
    (h : (bs.take n).flatten = bs.flatten) : bs.length ≤ n := by
  have hdrop : (bs.drop n).flatten = [] := by
    have hsplit : bs.flatten = (bs.take n).flatten ++ (bs.drop n).flatten := by
      rw [← List.flatten_append, List.take_append_drop]
    rw [← h] at hsplit
    exact List.self_eq_append_right.mp hsplit
  have hnil : bs.drop n = [] := by
    rw [List.flatten_eq_nil_iff] at hdrop
    refine List.eq_nil_iff_forall_not_mem.mpr fun b hb => ?_
    exact hne b (List.mem_of_mem_drop hb) (hdrop b hb)
  exact List.drop_eq_nil_iff.mp hnil

/-- The filter that is left has the hash functions of the whole one. -/
theorem numHashFuncs_cutFilter {f : BloomFilter} (hf : cutFilter hash expected entries = .ok f) :
    4 ≤ filterSize expected % 2 ^ 32 ∧ f.numBits = (filterSize expected % 2 ^ 32 - 4) * 8 ∧
      f.numHashFuncs = BloomFilter.hashFuncs := by
  have hserial := length_filterOf hash expected entries
  have hle := Nat.mod_le (filterSize expected) (2 ^ 32)
  have hfilled : BloomFilter.Filled hash expected _ _ := BloomFilter.filled_ofKeys (entries.map (·.1))
  have hcut : ((filterOf hash expected entries).serialize.take (filterSize expected % 2 ^ 32)).length =
      filterSize expected % 2 ^ 32 := by
    rw [List.length_take, hserial]
    omega
  unfold cutFilter BloomFilter.deserialize at hf
  rw [hcut] at hf
  by_cases hshort : filterSize expected % 2 ^ 32 < 4
  · rw [if_pos hshort] at hf
    cases hf
  · rw [if_neg hshort, List.length_drop, hcut] at hf
    refine ⟨Nat.not_lt.mp hshort, ?_, ?_⟩
    · rw [← Except.ok.inj hf]
    · rw [← Except.ok.inj hf]
      show field _ 0 4 = _
      have hfield : field (filterOf hash expected entries).serialize 0 4 = BloomFilter.hashFuncs := by
        rw [BloomFilter.serialize, field_zero (by rw [filterOf, hfilled.numHashFuncs]; decide), filterOf,
          hfilled.numHashFuncs]
      rw [← hfield, field, field, List.drop_zero, List.drop_zero, List.take_take,
        Nat.min_eq_left (Nat.not_lt.mp hshort)]

theorem sizesFit_of_roundTrips (hlz : lz.Lawful) (hasc : Keyed.Ascending entries)
    (hread : Readable (dataBlocks entries))
    (h : RoundTrips lz hash expected path entries) : SizesFit hash expected entries := by
  obtain ⟨file, r, hwrite, hload, hget, -, heach, -⟩ := h
  rcases write_spec hlz hasc hread with ⟨hok, hlen⟩ | ⟨⟨e, he⟩, -⟩
  swap
  · rw [he] at hwrite
    cases hwrite
  have hfile : tableFile lz hash expected entries = file := Except.ok.inj (hok.symm.trans hwrite)
  rw [← hfile] at hload
  obtain ⟨hf, hholds⟩ := holds_load hlz hasc hread hlen hload
  obtain ⟨hfour, hbits, hfuncs⟩ := numHashFuncs_cutFilter hf
  have hmayOk : ∀ key, ∃ b, r.bloomFilter.mayContain hash key = .ok b := by
    intro key
    have hk := hget key
    unfold SSTableReader.get at hk
    cases hm : r.bloomFilter.mayContain hash key with
    | ok b => exact ⟨b, rfl⟩
    | error e =>
      rw [hm, error_bind] at hk
      cases hk
  refine ⟨?_, ?_, .inr ⟨r.bloomFilter, hf, fun e he => ?_⟩⟩
  · have hflat : ((dataBlocks entries).take (20 * (dataBlocks entries).length % 2 ^ 32 / 20)).flatten =
        (dataBlocks entries).flatten := by
      rw [SSTableReader.forEach, eachBlock_eq hholds.reads] at heach
      rw [flatten_dataBlocks]
      exact (Prod.mk.inj heach).1
    have hcount : (dataBlocks entries).length ≤ _ :=
      length_le_of_flatten_take (ne_nil_of_mem_cutBlocks entries []) hflat
    omega
  · obtain ⟨b, hb⟩ := hmayOk 0
    by_contra hle
    have hzero : r.bloomFilter.numBits = 0 := by omega
    have htrap : r.bloomFilter.checkBits = .error ⟨.trap, "division by zero"⟩ :=
      if_pos ⟨hzero, by rw [hfuncs]; decide⟩
    rw [BloomFilter.mayContain, htrap] at hb
    cases hb
  · obtain ⟨b, hb⟩ := hmayOk e.1
    have hk := hget e.1
    rw [hasc.lookup (k := e.1) (v := e.2) he] at hk
    cases b with
    | true => exact hb
    | false =>
      rw [SSTableReader.get, hb, ok_bind, if_pos rfl] at hk
      cases Except.ok.inj hk

/-- **Tables are read back from their files if and only if the sizes of the
index and of the filter fit**, whatever the entries and the size that was
expected are. -/
theorem roundTrips_iff (hlz : lz.Lawful) (hasc : Keyed.Ascending entries) (hread : Readable (dataBlocks entries)) :
    RoundTrips lz hash expected path entries ↔ SizesFit hash expected entries :=
  ⟨sizesFit_of_roundTrips hlz hasc hread, roundTrips_of_sizesFit hlz hasc hread⟩

end RoundTrip

/-! ### A table of one entry, and one of too many blocks -/

/-- The 64-bit hash of the eight bytes of a key. -/
def xxh64 (key : Key) (seed : UInt64) : UInt64 :=
  let p₁ : UInt64 := 0x9E3779B185EBCA87
  let p₂ : UInt64 := 0xC2B2AE3D27D4EB4F
  let p₃ : UInt64 := 0x165667B19E3779F9
  let p₄ : UInt64 := 0x85EBCA77C2B2AE63
  let p₅ : UInt64 := 0x27D4EB2F165667C5
  let rotl (x : UInt64) (r : UInt64) : UInt64 := (x <<< r) ||| (x >>> (64 - r))
  let h := (seed + p₅ + 8) ^^^ (rotl (key * p₂) 31 * p₁)
  let h := rotl h 27 * p₁ + p₄
  let h := (h ^^^ (h >>> 33)) * p₂
  let h := (h ^^^ (h >>> 29)) * p₃
  h ^^^ (h >>> 32)

/-- The bytes of a length from 15 on. -/
def lengthBytes (n : ℕ) : Bytes := List.replicate (n / 255) 255 ++ [UInt8.ofNat (n % 255)]

def readLength : Bytes → Option (ℕ × Bytes)
  | [] => none
  | b :: data => if b = 255 then (readLength data).map fun p => (255 + p.1, p.2) else some (b.toNat, data)

/-- A sequence of LZ4 that has literals only, as data without repetitions is
compressed. -/
def literals : Lz4 where
  compress data :=
    if data.length < 15 then UInt8.ofNat (data.length * 16) :: data
    else 0xF0 :: (lengthBytes (data.length - 15) ++ data)
  decompress data size :=
    match data with
    | [] => none
    | token :: rest =>
      let sequence := if token.toNat / 16 < 15 then some (token.toNat / 16, rest)
        else (readLength rest).map fun p => (15 + p.1, p.2)
      match sequence with
      | none => none
      | some (n, rest) => if rest.length = n ∧ n ≤ size then some rest else none

theorem readLength_lengthBytes (n : ℕ) (rest : Bytes) : readLength (lengthBytes n ++ rest) = some (n, rest) := by
  have hall : ∀ k m : ℕ, m < 255 →
      readLength (List.replicate k 255 ++ [UInt8.ofNat m] ++ rest) = some (255 * k + m, rest) := by
    intro k m hm
    have htoNat : (UInt8.ofNat m).toNat = m := UInt8.toNat_ofNat_of_lt' (by show m < 256; omega)
    induction k with
    | zero =>
      have hne : UInt8.ofNat m ≠ 255 := fun he => by
        rw [he] at htoNat
        have h255 : (255 : UInt8).toNat = 255 := rfl
        omega
      simp only [List.replicate_zero, List.nil_append, List.singleton_append, readLength, if_neg hne, htoNat]
      simp
    | succ k ih =>
      rw [List.replicate_succ, List.cons_append, List.cons_append, readLength, if_pos rfl, ih, Option.map_some]
      congr 2
      omega
  have h := hall (n / 255) (n % 255) (Nat.mod_lt _ (by decide))
  rwa [Nat.div_add_mod] at h

theorem lawful_literals : literals.Lawful where
  ne_nil := fun data _ => by
    show (if data.length < 15 then _ else _) ≠ []
    split <;> exact List.cons_ne_nil _ _
  length_le := fun data _ => by
    show (if data.length < 15 then _ else _ : Bytes).length ≤ _
    unfold compressBound
    split
    · rw [List.length_cons]
      omega
    · rw [List.length_cons, List.length_append, lengthBytes, List.length_append, List.length_replicate,
        List.length_singleton]
      omega
  decompress := fun data _ => by
    by_cases hshort : data.length < 15
    · have hc : literals.compress data = UInt8.ofNat (data.length * 16) :: data := if_pos hshort
      have htoken : (UInt8.ofNat (data.length * 16)).toNat / 16 = data.length := by
        rw [UInt8.toNat_ofNat_of_lt' (by show data.length * 16 < 256; omega)]
        omega
      rw [hc]
      simp only [literals, htoken, if_pos hshort, le_refl, and_self, if_true]
    · have hc : literals.compress data = 0xF0 :: (lengthBytes (data.length - 15) ++ data) := if_neg hshort
      have hsum : 15 + (data.length - 15) = data.length := by omega
      have htoken : ¬ (0xF0 : UInt8).toNat / 16 < 15 := by decide
      rw [hc]
      simp only [literals, if_neg htoken, readLength_lengthBytes, Option.map_some, hsum, le_refl, and_self, if_true]

def oneEntry : List (Key × Bytes) := [(0x0807060504030201, [])]

theorem roundTrips_oneEntry :
    SizesFit xxh64 1024 oneEntry ∧ RoundTrips literals xxh64 1024 "level_0/sst_000001.sst" oneEntry := by
  have hread : Readable (dataBlocks oneEntry) := by
    have hall : ∀ b ∈ dataBlocks oneEntry, (blockBytes b).length = 16 := by decide
    exact fun b hb => by rw [hall b hb]; decide
  have hfit : SizesFit xxh64 1024 oneEntry := ⟨by decide, by decide, .inl (by decide)⟩
  exact ⟨hfit, (roundTrips_iff lawful_literals (List.pairwise_singleton _ _) hread).mpr hfit⟩

/-- Entries that fill a block each. -/
def fullBlocks (n : ℕ) : List (Key × Bytes) := (List.range n).map fun i => (UInt64.ofNat i, List.replicate 4080 0)

theorem cutBlocks_full : ∀ es : List (Key × Bytes), (∀ e ∈ es, e.2.length = 4080) →
    cutBlocks [] es = es.map fun e => [e]
  | [], _ => rfl
  | e :: es, h => by
    have hsize : (blockBytes ([] ++ [e])).length = BlockBuilder.DATA_BLOCK_SIZE := by
      rw [length_blockBytes, List.nil_append, List.flatMap_singleton, length_entryBytes, h e List.mem_cons_self]
      rfl
    rw [cutBlocks, if_pos hsize.ge, cutBlocks_full es fun x hx => h x (List.mem_cons_of_mem _ hx)]
    rfl

theorem dataBlocks_fullBlocks (n : ℕ) : dataBlocks (fullBlocks n) = (fullBlocks n).map fun e => [e] := by
  refine cutBlocks_full _ fun e he => ?_
  obtain ⟨i, -, rfl⟩ := List.mem_map.mp he
  exact List.length_replicate

theorem length_fullBlocks (n : ℕ) : (dataBlocks (fullBlocks n)).length = n := by
  rw [dataBlocks_fullBlocks, fullBlocks, List.length_map, List.length_map, List.length_range]

theorem readable_fullBlocks (n : ℕ) : Readable (dataBlocks (fullBlocks n)) := by
  intro b hb
  rw [dataBlocks_fullBlocks] at hb
  obtain ⟨e, he, rfl⟩ := List.mem_map.mp hb
  obtain ⟨i, -, rfl⟩ := List.mem_map.mp he
  rw [length_blockBytes, List.flatMap_singleton, length_entryBytes, List.length_replicate]
  decide

theorem ascending_fullBlocks {n : ℕ} (hn : n ≤ 2 ^ 64) : Keyed.Ascending (fullBlocks n) := by
  refine List.pairwise_map.mpr (List.pairwise_iff_getElem.mpr fun i j hi hj hij => ?_)
  rw [List.length_range] at hi hj
  rw [List.getElem_range, List.getElem_range]
  show UInt64.ofNat i < UInt64.ofNat j
  rw [UInt64.lt_iff_toNat_lt, UInt64.toNat_ofNat_of_lt' (by show i < 2 ^ 64; omega),
    UInt64.toNat_ofNat_of_lt' (by show j < 2 ^ 64; omega)]
  exact hij

/-- A table with one block too many: its index has 2 ^ 32 + 4 bytes, and its
reader sees 4. -/
theorem not_roundTrips_fullBlocks : literals.Lawful ∧ Keyed.Ascending (fullBlocks 214748365) ∧
    Readable (dataBlocks (fullBlocks 214748365)) ∧
    ¬ RoundTrips literals xxh64 1024 "level_2/sst_000001.sst" (fullBlocks 214748365) := by
  have hasc : Keyed.Ascending (fullBlocks 214748365) := ascending_fullBlocks (by decide)
  have hread := readable_fullBlocks 214748365
  refine ⟨lawful_literals, hasc, hread, fun h => ?_⟩
  have hsizes := (sizesFit_of_roundTrips lawful_literals hasc hread h).1
  rw [length_fullBlocks] at hsizes
  exact absurd hsizes (by decide)

end Lsm
end Amind
