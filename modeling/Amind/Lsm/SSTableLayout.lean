/-
# What a table file consists of

`dataBlocks` cuts the entries into blocks: one is complete once it has the
target size. `tableFile` is the file of the entries, `write_spec` says that the
writer writes it, and `load_tableFile` what a reader gets of it: the entries of
the index and the bytes of the filter that the low 32 bits of their sizes
count.
-/
import Amind.Lsm.SSTableFile

namespace Amind
namespace Lsm

open LittleEndian

/-! ### Blocks -/

/-- The blocks of the entries, behind those the current one has. -/
def cutBlocks (current : List (Key × Bytes)) : List (Key × Bytes) → List (List (Key × Bytes))
  | [] => if current = [] then [] else [current]
  | e :: entries =>
    if BlockBuilder.DATA_BLOCK_SIZE ≤ (blockBytes (current ++ [e])).length then
      (current ++ [e]) :: cutBlocks [] entries
    else cutBlocks (current ++ [e]) entries

def dataBlocks (entries : List (Key × Bytes)) : List (List (Key × Bytes)) := cutBlocks [] entries

theorem flatten_cutBlocks : ∀ (entries current : List (Key × Bytes)),
    (cutBlocks current entries).flatten = current ++ entries
  | [], current => by
    unfold cutBlocks
    split
    · rename_i h
      rw [h]
      rfl
    · simp
  | e :: entries, current => by
    unfold cutBlocks
    split
    · rw [List.flatten_cons, flatten_cutBlocks entries []]
      simp
    · rw [flatten_cutBlocks entries (current ++ [e])]
      simp

theorem flatten_dataBlocks (entries : List (Key × Bytes)) : (dataBlocks entries).flatten = entries :=
  flatten_cutBlocks entries []

theorem ne_nil_of_mem_cutBlocks : ∀ (entries current : List (Key × Bytes)), ∀ b ∈ cutBlocks current entries, b ≠ []
  | [], current, b, hb => by
    unfold cutBlocks at hb
    split at hb
    · cases hb
    · rename_i h
      rwa [List.mem_singleton.mp hb]
  | e :: entries, current, b, hb => by
    unfold cutBlocks at hb
    split at hb
    · rcases List.mem_cons.mp hb with rfl | hb
      · simp
      · exact ne_nil_of_mem_cutBlocks entries [] b hb
    · exact ne_nil_of_mem_cutBlocks entries _ b hb

/-- The first key of a block. -/
def firstKey (block : List (Key × Bytes)) : Key := (block.head?.map (·.1)).getD 0

variable (lz : Lz4)

/-- The index of blocks that start at the offset. -/
def indexFrom : ℕ → List (List (Key × Bytes)) → List IndexEntry
  | _, [] => []
  | offset, b :: blocks =>
    ⟨firstKey b, offset, (encodeBlock lz b).length % 2 ^ 32⟩ :: indexFrom (offset + (encodeBlock lz b).length) blocks

theorem length_indexFrom : ∀ (blocks : List (List (Key × Bytes))) (offset : ℕ),
    (indexFrom lz offset blocks).length = blocks.length
  | [], _ => rfl
  | b :: blocks, offset => by rw [indexFrom, List.length_cons, length_indexFrom blocks, List.length_cons]

theorem indexFrom_append : ∀ (blocks more : List (List (Key × Bytes))) (offset : ℕ),
    indexFrom lz offset (blocks ++ more) =
      indexFrom lz offset blocks ++ indexFrom lz (offset + (blocks.flatMap (encodeBlock lz)).length) more
  | [], more, offset => rfl
  | b :: blocks, more, offset => by
    rw [List.cons_append, indexFrom, indexFrom_append blocks more, indexFrom, List.flatMap_cons, List.length_append,
      Nat.add_assoc]
    rfl

/-! ### Files -/

variable (hash : Key → UInt64 → UInt64) (expected : UInt64)

def dataBytes (blocks : List (List (Key × Bytes))) : Bytes := blocks.flatMap (encodeBlock lz)

def indexBytes (blocks : List (List (Key × Bytes))) : Bytes := (indexFrom lz 0 blocks).flatMap IndexEntry.writeTo

/-- The filter of the entries. -/
def filterOf (entries : List (Key × Bytes)) : BloomFilter := BloomFilter.ofKeys hash expected (entries.map (·.1))

/-- The size of the filter in a file. -/
def filterSize : ℕ := 4 + BloomFilter.bitsFor expected / 8

def footerOf (entries : List (Key × Bytes)) : SSTableFooter :=
  SSTableWriter.footer (dataBytes lz (dataBlocks entries)).length (indexBytes lz (dataBlocks entries)).length
    (filterSize expected) entries.length

/-- The file of the entries. -/
def tableFile (entries : List (Key × Bytes)) : Bytes :=
  dataBytes lz (dataBlocks entries) ++ indexBytes lz (dataBlocks entries) ++
    (filterOf hash expected entries).serialize ++
    (footerOf lz expected entries).write

/-- No block is longer than a reader accepts. -/
def Readable (blocks : List (List (Key × Bytes))) : Prop :=
  ∀ b ∈ blocks, (blockBytes b).length ≤ BlockReader.MAX_UNCOMPRESSED

theorem length_writeTo (e : IndexEntry) : e.writeTo.length = 20 := length_pack _

theorem length_indexBytes (blocks : List (List (Key × Bytes))) :
    (indexBytes lz blocks).length = 20 * blocks.length := by
  have hall : ∀ es : List IndexEntry, (es.flatMap IndexEntry.writeTo).length = 20 * es.length := by
    intro es
    induction es with
    | nil => rfl
    | cons e es ih =>
      rw [List.flatMap_cons, List.length_append, length_writeTo, ih, List.length_cons]
      omega
  rw [indexBytes, hall, length_indexFrom]

theorem length_filterOf (entries : List (Key × Bytes)) :
    (filterOf hash expected entries).serialize.length = filterSize expected :=
  (BloomFilter.filled_ofKeys _).length_serialize

theorem length_footer (f : SSTableFooter) : f.write.length = 40 := length_pack _

theorem length_tableFile (entries : List (Key × Bytes)) : (tableFile lz hash expected entries).length =
    (dataBytes lz (dataBlocks entries)).length + 20 * (dataBlocks entries).length + filterSize expected + 40 := by
  rw [tableFile, List.length_append, List.length_append, List.length_append, length_indexBytes, length_filterOf,
    length_footer]

/-! ### Writing -/

variable {lz hash expected}

theorem insertEnd_cases (buffer bytes : Bytes) :
    insertEnd buffer bytes = .ok (buffer ++ bytes) ∧ (buffer ++ bytes).length ≤ VECTOR_MAX_SIZE ∨
      (∃ e, insertEnd buffer bytes = .error e) ∧ VECTOR_MAX_SIZE < (buffer ++ bytes).length := by
  rw [List.length_append, insertEnd]
  split
  · rename_i h
    exact .inr ⟨⟨_, rfl⟩, h⟩
  · rename_i h
    exact .inl ⟨rfl, Nat.not_lt.mp h⟩

/-- The parts of a file, one behind the other. -/
theorem insertAll_cases (a b c d : Bytes) :
    (insertEnd a b >>= fun x => insertEnd x c >>= fun x => insertEnd x d) = .ok (a ++ b ++ c ++ d) ∧
        (a ++ b ++ c ++ d).length ≤ VECTOR_MAX_SIZE ∨
      (∃ e, (insertEnd a b >>= fun x => insertEnd x c >>= fun x => insertEnd x d) = .error e) ∧
        VECTOR_MAX_SIZE < (a ++ b ++ c ++ d).length := by
  have hlong : ∀ x y : Bytes, VECTOR_MAX_SIZE < x.length → VECTOR_MAX_SIZE < (x ++ y).length := fun x y h => by
    rw [List.length_append]
    omega
  rcases insertEnd_cases a b with ⟨hab, -⟩ | ⟨⟨e, he⟩, h⟩
  · rw [hab, ok_bind]
    rcases insertEnd_cases (a ++ b) c with ⟨habc, -⟩ | ⟨⟨e, he⟩, h⟩
    · rw [habc, ok_bind]
      exact insertEnd_cases (a ++ b ++ c) d
    · rw [he, error_bind]
      exact .inr ⟨⟨e, rfl⟩, hlong _ _ h⟩
  · rw [he, error_bind]
    exact .inr ⟨⟨e, rfl⟩, hlong _ _ (hlong _ _ h)⟩

/-- What the writer has after some entries: the blocks that are done, and the
entries of the current one. -/
structure Writing (lz : Lz4) (hash : Key → UInt64 → UInt64) (expected : UInt64) (w : SSTableWriter)
    (done : List (List (Key × Bytes))) (current : List (Key × Bytes)) (keys : List Key) : Prop where
  fileBuffer : w.fileBuffer = dataBytes lz done
  indexEntries : w.indexEntries = indexFrom lz 0 done
  entries : w.blockBuilder.entries = current
  size : w.blockBuilder.uncompressedSize = (blockBytes current).length
  firstKey : current ≠ [] → w.blockBuilder.firstKey = firstKey current
  bloomFilter : w.bloomFilter = BloomFilter.ofKeys hash expected keys
  count : w.entryCount = keys.length
  lastKey : 0 < w.entryCount → w.lastKey ∈ keys

theorem writing_new : Writing lz hash expected (SSTableWriter.new expected) [] [] [] :=
  ⟨rfl, rfl, rfl, rfl, fun h => absurd rfl h, rfl, rfl, fun h => absurd h (Nat.lt_irrefl 0)⟩

/-- The block is finished, or there is no room for it. -/
theorem Writing.flushDataBlock (hlz : lz.Lawful) {w : SSTableWriter} {done : List (List (Key × Bytes))}
    {current : List (Key × Bytes)} {keys : List Key} (h : Writing lz hash expected w done current keys)
    (hne : current ≠ []) (hlen : (blockBytes current).length ≤ BlockReader.MAX_UNCOMPRESSED) :
    (∃ w', w.flushDataBlock lz = .ok w' ∧ Writing lz hash expected w' (done ++ [current]) [] keys ∧
      w'.finished = w.finished) ∨
    (∃ e, w.flushDataBlock lz = .error e) ∧ VECTOR_MAX_SIZE < (dataBytes lz (done ++ [current])).length := by
  have hfinish : w.blockBuilder.finish lz = .ok (encodeBlock lz current) := by
    rw [finish_eq hlz (by rw [h.entries]; exact hlen), h.entries]
  have hdata : dataBytes lz (done ++ [current]) = w.fileBuffer ++ encodeBlock lz current := by
    rw [h.fileBuffer, dataBytes, List.flatMap_append, List.flatMap_singleton, dataBytes]
  unfold SSTableWriter.flushDataBlock
  rw [if_neg (by rw [h.entries]; exact hne), hfinish]
  rw [ok_bind]
  rcases insertEnd_cases w.fileBuffer (encodeBlock lz current) with ⟨hok, -⟩ | ⟨⟨e, he⟩, hlong⟩
  · left
    rw [hok, ok_bind]
    refine ⟨_, rfl, ⟨hdata.symm, ?_, rfl, rfl, fun hn => absurd rfl hn, h.bloomFilter, h.count, h.lastKey⟩, rfl⟩
    rw [indexFrom_append, ← h.indexEntries, h.firstKey hne, h.fileBuffer, Nat.zero_add]
    rfl
  · right
    rw [he, error_bind, hdata]
    exact ⟨⟨e, rfl⟩, hlong⟩

/-- An entry that is added to the current block. -/
theorem Writing.put {w : SSTableWriter} {done : List (List (Key × Bytes))} {current : List (Key × Bytes)}
    {keys : List Key} (h : Writing lz hash expected w done current keys) (e : Key × Bytes) :
    Writing lz hash expected (w.put (w.bloomFilter.put hash e.1) e.1 e.2) done (current ++ [e]) (keys ++ [e.1]) where
  fileBuffer := h.fileBuffer
  indexEntries := h.indexEntries
  entries := congrArg (· ++ [e]) h.entries
  size := by
    show w.blockBuilder.uncompressedSize + (8 + 4 + e.2.length) = _
    rw [h.size, length_blockBytes, length_blockBytes, List.flatMap_append, List.flatMap_singleton, List.length_append,
      length_entryBytes]
    omega
  firstKey := fun _ => by
    show (if w.blockBuilder.entries = [] then e.1 else w.blockBuilder.firstKey) = _
    rw [h.entries]
    cases hc : current with
    | nil => rfl
    | cons e' rest =>
      rw [if_neg (List.cons_ne_nil _ _), h.firstKey (hc ▸ List.cons_ne_nil _ _), hc]
      rfl
  bloomFilter := by
    show w.bloomFilter.put hash e.1 = _
    rw [h.bloomFilter, BloomFilter.ofKeys, BloomFilter.ofKeys, List.foldl_append]
    rfl
  count := by
    show w.entryCount + 1 = _
    rw [h.count, List.length_append]
    rfl
  lastKey := fun _ => List.mem_append_right _ (List.mem_singleton_self _)

theorem dataBytes_front (done more : List (List (Key × Bytes))) :
    (dataBytes lz done).length ≤ (dataBytes lz (done ++ more)).length := by
  rw [dataBytes, dataBytes, List.flatMap_append, List.length_append]
  exact Nat.le_add_right _ _

/-- Why a table cannot be written. -/
def Unwritable (lz : Lz4) (expected : UInt64) (entries : List (Key × Bytes))
    (blocks : List (List (Key × Bytes))) : Prop :=
  BloomFilter.bitsFor expected = 0 ∧ entries ≠ [] ∨ VECTOR_MAX_SIZE < (dataBytes lz blocks).length

/-- All the entries are added: the blocks are those that are cut. -/
theorem Writing.addAll (hlz : lz.Lawful) : ∀ (entries : List (Key × Bytes)) {w : SSTableWriter}
    {done : List (List (Key × Bytes))} {current : List (Key × Bytes)} {keys : List Key},
    Writing lz hash expected w done current keys → w.finished = false → Keyed.Ascending entries →
    (∀ e ∈ entries, ∀ k ∈ keys, k < e.1) → Readable (cutBlocks current entries) →
    (∃ w' done' current', w.addAll lz hash entries = .ok w' ∧ w'.finished = false ∧
      Writing lz hash expected w' done' current' (keys ++ entries.map (·.1)) ∧
      done' ++ cutBlocks current' [] = done ++ cutBlocks current entries) ∨
    (∃ e, w.addAll lz hash entries = .error e) ∧ Unwritable lz expected entries (done ++ cutBlocks current entries)
  | [], w, done, current, keys, h, hfin, _, _, _ =>
    .inl ⟨w, done, current, rfl, hfin, by rwa [List.map_nil, List.append_nil], rfl⟩
  | e :: entries, w, done, current, keys, h, hfin, hasc, hlt, hread => by
    have hkey : ¬ (0 < w.entryCount ∧ e.1 ≤ w.lastKey) := fun hk =>
      absurd hk.2 (not_le.mpr (hlt e List.mem_cons_self w.lastKey (h.lastKey hk.1)))
    have hlater : ∀ e' ∈ entries, ∀ k ∈ keys ++ [e.1], k < e'.1 := by
      intro e' he' k hk
      rcases List.mem_append.mp hk with hk | hk
      · exact hlt e' (List.mem_cons_of_mem _ he') k hk
      · rw [List.mem_singleton.mp hk]
        exact hasc.head_lt e' he'
    have hkeys : keys ++ (e :: entries).map (·.1) = keys ++ [e.1] ++ entries.map (·.1) := by simp
    have hfilled : w.bloomFilter.Filled hash expected keys := h.bloomFilter ▸ BloomFilter.filled_ofKeys keys
    have hput := h.put e
    unfold SSTableWriter.addAll SSTableWriter.add
    rw [if_neg (by rw [hfin]; exact Bool.false_ne_true), if_neg hkey, hkeys]
    by_cases hbits : BloomFilter.bitsFor expected = 0
    · have htrap : w.bloomFilter.checkBits = .error ⟨.trap, "division by zero"⟩ :=
        if_pos ⟨hfilled.numBits.trans hbits, by rw [hfilled.numHashFuncs]; decide⟩
      right
      rw [BloomFilter.add, htrap]
      exact ⟨⟨_, rfl⟩, .inl ⟨hbits, List.cons_ne_nil _ _⟩⟩
    · rw [hfilled.add (Nat.pos_of_ne_zero hbits), ok_bind]
      dsimp only
      rw [BlockBuilder.isFull, hput.size]
      by_cases hfull : BlockBuilder.DATA_BLOCK_SIZE ≤ (blockBytes (current ++ [e])).length
      · have hcut : cutBlocks current (e :: entries) = (current ++ [e]) :: cutBlocks [] entries := by
          rw [cutBlocks, if_pos hfull]
        rw [hcut] at hread ⊢
        rw [if_pos (decide_eq_true hfull), List.append_cons done]
        rcases hput.flushDataBlock hlz (by simp) (hread _ List.mem_cons_self) with
          ⟨w', hok, hw', hfin'⟩ | ⟨⟨x, hx⟩, hlong⟩
        · rw [hok, ok_bind]
          refine (Writing.addAll hlz entries hw' (hfin'.trans hfin) hasc.tail hlater fun b hb =>
            hread b (List.mem_cons_of_mem _ hb)).imp_right fun hbad => ⟨hbad.1, ?_⟩
          exact hbad.2.imp_left fun hz => ⟨hz.1, List.cons_ne_nil _ _⟩
        · right
          rw [hx, error_bind]
          exact ⟨⟨x, rfl⟩, .inr (lt_of_lt_of_le hlong (dataBytes_front _ _))⟩
      · have hcut : cutBlocks current (e :: entries) = cutBlocks (current ++ [e]) entries := by
          rw [cutBlocks, if_neg hfull]
        rw [hcut] at hread ⊢
        rw [if_neg (by rwa [decide_eq_true_eq]), ok_bind]
        refine (Writing.addAll hlz entries hput hfin hasc.tail hlater hread).imp_right fun hbad => ⟨hbad.1, ?_⟩
        exact hbad.2.imp_left fun hz => ⟨hz.1, List.cons_ne_nil _ _⟩

/-- The current block is finished with the table. -/
theorem Writing.flushLast (hlz : lz.Lawful) {w : SSTableWriter} {done : List (List (Key × Bytes))}
    {current : List (Key × Bytes)} {keys : List Key} (h : Writing lz hash expected w done current keys)
    (hread : Readable (cutBlocks current [])) :
    (∃ w', SSTableWriter.flushDataBlock lz { w with finished := true } = .ok w' ∧
      Writing lz hash expected w' (done ++ cutBlocks current []) [] keys) ∨
    (∃ e, SSTableWriter.flushDataBlock lz { w with finished := true } = .error e) ∧
      VECTOR_MAX_SIZE < (dataBytes lz (done ++ cutBlocks current [])).length := by
  have hw : Writing lz hash expected { w with finished := true } done current keys :=
    ⟨h.fileBuffer, h.indexEntries, h.entries, h.size, h.firstKey, h.bloomFilter, h.count, h.lastKey⟩
  by_cases hc : current = []
  · subst hc
    refine .inl ⟨_, if_pos h.entries, ?_⟩
    rw [cutBlocks, if_pos rfl, List.append_nil]
    exact hw
  · have hcut : cutBlocks current [] = [current] := by rw [cutBlocks, if_neg hc]
    rw [hcut] at hread ⊢
    refine (hw.flushDataBlock hlz hc (hread _ List.mem_cons_self)).imp_left fun hok => ?_
    obtain ⟨w', hw', hwriting, -⟩ := hok
    exact ⟨w', hw', hwriting⟩

/-- **The writer writes the file of the entries**, unless it is too long or the
filter has no bits. -/
theorem write_spec (hlz : lz.Lawful) {entries : List (Key × Bytes)} (hasc : Keyed.Ascending entries)
    (hread : Readable (dataBlocks entries)) :
    SSTableWriter.write lz hash expected entries = .ok (tableFile lz hash expected entries) ∧
      (tableFile lz hash expected entries).length ≤ VECTOR_MAX_SIZE ∨
    (∃ e, SSTableWriter.write lz hash expected entries = .error e) ∧
      (BloomFilter.bitsFor expected = 0 ∧ entries ≠ [] ∨
        VECTOR_MAX_SIZE < (tableFile lz hash expected entries).length) := by
  have hlength := length_tableFile lz hash expected entries
  have hmore : VECTOR_MAX_SIZE < (dataBytes lz (dataBlocks entries)).length →
      VECTOR_MAX_SIZE < (tableFile lz hash expected entries).length := fun h => by omega
  unfold SSTableWriter.write
  rcases Writing.addAll hlz entries writing_new rfl hasc (fun _ _ k hk => absurd hk List.not_mem_nil) hread with
    ⟨w, done, current, hadd, hfin, hw, hblocks⟩ | ⟨⟨e, he⟩, hbad⟩
  · have hlast : dataBlocks entries = done ++ cutBlocks current [] := hblocks.symm
    rw [hadd, ok_bind, SSTableWriter.finish, if_neg (by rw [hfin]; exact Bool.false_ne_true)]
    rcases hw.flushLast hlz (fun b hb => hread b (hlast ▸ List.mem_append_right _ hb)) with
      ⟨w', hw', hwriting⟩ | ⟨⟨e, he⟩, hlong⟩
    · rw [hw', ok_bind]
      rw [← hlast] at hwriting
      have hindex : w'.indexEntries.flatMap IndexEntry.writeTo = indexBytes lz (dataBlocks entries) := by
        rw [hwriting.indexEntries]
        rfl
      have hbloom : w'.bloomFilter = filterOf hash expected entries := hwriting.bloomFilter
      have hcount : w'.entryCount = entries.length := by
        rw [hwriting.count, List.nil_append, List.length_map]
      have hbuffer : w'.fileBuffer = dataBytes lz (dataBlocks entries) := hwriting.fileBuffer
      dsimp only
      rw [hindex, hbloom, hcount, hbuffer, length_filterOf]
      refine (insertAll_cases (dataBytes lz (dataBlocks entries)) (indexBytes lz (dataBlocks entries))
        (filterOf hash expected entries).serialize (footerOf lz expected entries).write).imp_right fun hbad => ?_
      exact ⟨hbad.1, .inr hbad.2⟩
    · right
      rw [he, error_bind]
      exact ⟨⟨e, rfl⟩, .inr (hmore (by rw [hlast]; exact hlong))⟩
  · right
    rw [he, error_bind]
    exact ⟨⟨e, rfl⟩, hbad.imp_right hmore⟩

/-! ### Loading -/

theorem readFrom_writeTo {e : IndexEntry} {rest : Bytes} (ho : e.offset < 2 ^ 64) (hs : e.compressedSize < 2 ^ 32) :
    IndexEntry.readFrom (e.writeTo ++ rest) = e := by
  have hk : field (e.writeTo ++ rest) 0 8 = e.firstKey.toNat := field_pack (i := 0) rfl rfl e.firstKey.toNat_lt
  have ho' : field (e.writeTo ++ rest) 8 8 = e.offset := field_pack (i := 1) rfl rfl ho
  have hs' : field (e.writeTo ++ rest) 16 4 = e.compressedSize := field_pack (i := 2) rfl rfl hs
  rw [IndexEntry.readFrom, hk, ho', hs', UInt64.ofNat_toNat]

/-- The entries of an index are read back, as many as are counted. -/
theorem readIndex (pre post : Bytes) : ∀ (n : ℕ) (es : List IndexEntry),
    (∀ e ∈ es, e.offset < 2 ^ 64 ∧ e.compressedSize < 2 ^ 32) → n ≤ es.length →
    ((List.range n).map fun i =>
      IndexEntry.readFrom ((pre ++ es.flatMap IndexEntry.writeTo ++ post).drop (pre.length + i * 20))) = es.take n
  | 0, _, _, _ => rfl
  | n + 1, [], _, hn => absurd hn (Nat.not_succ_le_zero n)
  | n + 1, e :: es, h, hn => by
    obtain ⟨ho, hs⟩ := h e List.mem_cons_self
    have ih := readIndex (pre ++ e.writeTo) post n es (fun e' he' => h e' (List.mem_cons_of_mem _ he'))
      (Nat.le_of_succ_le_succ hn)
    have hpre : (pre ++ e.writeTo).length = pre.length + 20 := by rw [List.length_append, length_writeTo]
    have hsplit : pre ++ (e :: es).flatMap IndexEntry.writeTo ++ post =
        pre ++ e.writeTo ++ es.flatMap IndexEntry.writeTo ++ post := by
      rw [List.flatMap_cons, List.append_assoc pre e.writeTo]
    rw [List.range_succ_eq_map, List.map_cons, List.map_map, List.take_succ_cons, ← ih, hsplit]
    congr 1
    · rw [Nat.zero_mul, Nat.add_zero, List.append_assoc, List.append_assoc, List.drop_left]
      exact readFrom_writeTo ho hs
    · refine List.map_congr_left fun i _ => ?_
      rw [Function.comp_apply, hpre]
      congr 2
      omega

theorem bounds_indexFrom : ∀ (blocks : List (List (Key × Bytes))) (offset : ℕ), ∀ e ∈ indexFrom lz offset blocks,
    e.offset ≤ offset + (dataBytes lz blocks).length ∧ e.compressedSize < 2 ^ 32
  | [], _, e, he => absurd he List.not_mem_nil
  | b :: blocks, offset, e, he => by
    have hlen : (dataBytes lz (b :: blocks)).length = (encodeBlock lz b).length + (dataBytes lz blocks).length := by
      rw [dataBytes, List.flatMap_cons, List.length_append]
      rfl
    rcases List.mem_cons.mp he with rfl | he
    · exact ⟨Nat.le_add_right _ _, Nat.mod_lt _ (by decide)⟩
    · obtain ⟨ho, hs⟩ := bounds_indexFrom blocks _ e he
      exact ⟨by omega, hs⟩

theorem take_indexFrom : ∀ (n : ℕ) (blocks : List (List (Key × Bytes))) (offset : ℕ),
    (indexFrom lz offset blocks).take n = indexFrom lz offset (blocks.take n)
  | 0, _, _ => rfl
  | _ + 1, [], _ => rfl
  | n + 1, b :: blocks, offset => by
    rw [indexFrom, List.take_succ_cons, take_indexFrom n blocks, List.take_succ_cons, indexFrom]

theorem read_write {f : SSTableFooter} (hi : f.indexOffset < 2 ^ 64) (his : f.indexSize < 2 ^ 32)
    (hb : f.bloomFilterOffset < 2 ^ 64) (hbs : f.bloomFilterSize < 2 ^ 32) (hc : f.entryCount < 2 ^ 32)
    (hv : f.version < 2 ^ 16) (hm : f.magic < 2 ^ 64) : SSTableFooter.read f.write = f := by
  have hfield : ∀ {i w n off : ℕ}, ([(8, f.indexOffset), (4, f.indexSize), (8, f.bloomFilterOffset),
      (4, f.bloomFilterSize), (4, f.entryCount), (2, f.version), (2, 0), (8, f.magic)] : List (ℕ × ℕ))[i]? =
        some (w, n) →
      (([8, 4, 8, 4, 4, 2, 2, 8] : List ℕ).take i).sum = off → n < 256 ^ w → field f.write off w = n := by
    intro i w n off hget hoff hn
    have h : field (f.write ++ []) off w = n := field_pack hget hoff hn
    rwa [List.append_nil] at h
  have h₀ : field f.write 0 8 = f.indexOffset := hfield (i := 0) rfl rfl hi
  have h₁ : field f.write 8 4 = f.indexSize := hfield (i := 1) rfl rfl his
  have h₂ : field f.write 12 8 = f.bloomFilterOffset := hfield (i := 2) rfl rfl hb
  have h₃ : field f.write 20 4 = f.bloomFilterSize := hfield (i := 3) rfl rfl hbs
  have h₄ : field f.write 24 4 = f.entryCount := hfield (i := 4) rfl rfl hc
  have h₅ : field f.write 28 2 = f.version := hfield (i := 5) rfl rfl hv
  have h₇ : field f.write 32 8 = f.magic := hfield (i := 7) rfl rfl hm
  rw [SSTableFooter.read, h₀, h₁, h₂, h₃, h₄, h₅, h₇]

/-- The footer is read from the end of a file. -/
theorem read_footerOf {entries : List (Key × Bytes)}
    (hlen : (tableFile lz hash expected entries).length ≤ VECTOR_MAX_SIZE) :
    SSTableFooter.read ((tableFile lz hash expected entries).drop
      ((tableFile lz hash expected entries).length - SSTableFooter.SIZE)) = footerOf lz expected entries := by
  have hlength := length_tableFile lz hash expected entries
  have hmax : VECTOR_MAX_SIZE = 2 ^ 63 - 1 := rfl
  have hfilter := length_filterOf hash expected entries
  have hindex := length_indexBytes lz (dataBlocks entries)
  have hsize : SSTableFooter.SIZE = 40 := rfl
  have hdrop : (tableFile lz hash expected entries).drop
      ((tableFile lz hash expected entries).length - SSTableFooter.SIZE) = (footerOf lz expected entries).write := by
    refine List.drop_left' ?_
    rw [List.length_append, List.length_append, hfilter, hindex, hlength]
    omega
  rw [hdrop]
  have hversion : SSTableFooter.VERSION < 2 ^ 16 := by decide
  have hmagic : SSTableFooter.MAGIC < 2 ^ 64 := by decide
  refine read_write ?_ (Nat.mod_lt _ (by decide)) ?_ (Nat.mod_lt _ (by decide)) (Nat.mod_lt _ (by decide)) hversion
    hmagic
  · show (dataBytes lz (dataBlocks entries)).length < 2 ^ 64
    omega
  · show (dataBytes lz (dataBlocks entries)).length + (indexBytes lz (dataBlocks entries)).length < 2 ^ 64
    omega

/-- The filter is after the index, as much of it as the footer says. -/
theorem slice_tableFile (entries : List (Key × Bytes)) : slice (tableFile lz hash expected entries)
    ((dataBytes lz (dataBlocks entries)).length + 20 * (dataBlocks entries).length) (filterSize expected % 2 ^ 32) =
      (filterOf hash expected entries).serialize.take (filterSize expected % 2 ^ 32) := by
  have hle := Nat.mod_le (filterSize expected) (2 ^ 32)
  refine slice_eq (p := dataBytes lz (dataBlocks entries) ++ indexBytes lz (dataBlocks entries)) ?_ ?_ ?_
  · rw [tableFile, List.append_assoc (dataBytes lz (dataBlocks entries) ++ indexBytes lz (dataBlocks entries))]
    exact List.prefix_append_right_inj _ |>.mpr ((List.take_prefix _ _).trans (List.prefix_append _ _))
  · rw [List.length_append, length_indexBytes]
  · rw [List.length_take, length_filterOf]
    omega

/-- The index is after the blocks. -/
theorem readIndex_tableFile {entries : List (Key × Bytes)}
    (hlen : (tableFile lz hash expected entries).length ≤ VECTOR_MAX_SIZE) {n : ℕ}
    (hn : n ≤ (dataBlocks entries).length) :
    ((List.range n).map fun i => IndexEntry.readFrom
      ((tableFile lz hash expected entries).drop ((dataBytes lz (dataBlocks entries)).length + i * 20))) =
        indexFrom lz 0 ((dataBlocks entries).take n) := by
  have hlength := length_tableFile lz hash expected entries
  have hmax : VECTOR_MAX_SIZE = 2 ^ 63 - 1 := rfl
  have hbound : ∀ e ∈ indexFrom lz 0 (dataBlocks entries), e.offset < 2 ^ 64 ∧ e.compressedSize < 2 ^ 32 := by
    intro e he
    obtain ⟨ho, hs⟩ := bounds_indexFrom (dataBlocks entries) 0 e he
    exact ⟨by omega, hs⟩
  have hread := readIndex (dataBytes lz (dataBlocks entries))
    ((filterOf hash expected entries).serialize ++ (footerOf lz expected entries).write) n
    (indexFrom lz 0 (dataBlocks entries)) hbound (by rw [length_indexFrom]; exact hn)
  rw [← take_indexFrom, ← hread]
  refine List.map_congr_left fun i _ => ?_
  rw [tableFile, List.append_assoc (dataBytes lz (dataBlocks entries) ++ indexBytes lz (dataBlocks entries))]
  rfl

/-- **What a reader gets of a file.** -/
theorem load_tableFile {entries : List (Key × Bytes)}
    (hlen : (tableFile lz hash expected entries).length ≤ VECTOR_MAX_SIZE) (path : String) :
    SSTableReader.load path (tableFile lz hash expected entries) =
      match BloomFilter.deserialize
        ((filterOf hash expected entries).serialize.take (filterSize expected % 2 ^ 32)) with
      | .error e => .error e
      | .ok f =>
        .ok
          { data := tableFile lz hash expected entries
            footer := footerOf lz expected entries
            indexEntries := indexFrom lz 0
              ((dataBlocks entries).take (20 * (dataBlocks entries).length % 2 ^ 32 / 20))
            bloomFilter := f } := by
  have hlength := length_tableFile lz hash expected entries
  have hmax : VECTOR_MAX_SIZE = 2 ^ 63 - 1 := rfl
  have hindex := length_indexBytes lz (dataBlocks entries)
  have hsize : SSTableFooter.SIZE = 40 := rfl
  have hserial : IndexEntry.SERIALIZED_SIZE = 20 := rfl
  have hle := Nat.mod_le (20 * (dataBlocks entries).length) (2 ^ 32)
  have hle' := Nat.mod_le (filterSize expected) (2 ^ 32)
  have hfooter := read_footerOf hlen
  have hslice : slice (tableFile lz hash expected entries) _ _ = _ := slice_tableFile entries
  have hentries := readIndex_tableFile hlen (n := 20 * (dataBlocks entries).length % 2 ^ 32 / 20) (by omega)
  generalize hf : footerOf lz expected entries = footer at hfooter
  have hio : footer.indexOffset = (dataBytes lz (dataBlocks entries)).length := by rw [← hf]; rfl
  have his : footer.indexSize = 20 * (dataBlocks entries).length % 2 ^ 32 := by rw [← hf, ← hindex]; rfl
  have hbo : footer.bloomFilterOffset =
      (dataBytes lz (dataBlocks entries)).length + 20 * (dataBlocks entries).length := by
    rw [← hf, ← hindex]; rfl
  have hbs : footer.bloomFilterSize = filterSize expected % 2 ^ 32 := by rw [← hf]; rfl
  have hvalid : footer.isValid = true := by rw [← hf]; rfl
  have hisum : (footer.indexOffset + footer.indexSize) % 2 ^ 64 = footer.indexOffset + footer.indexSize :=
    Nat.mod_eq_of_lt (by omega)
  have hbsum : (footer.bloomFilterOffset + footer.bloomFilterSize) % 2 ^ 64 =
      footer.bloomFilterOffset + footer.bloomFilterSize := Nat.mod_eq_of_lt (by omega)
  unfold SSTableReader.load
  rw [if_neg (by omega)]
  dsimp only
  rw [hfooter, hvalid, hisum, hbsum, if_neg (by decide), if_neg (by omega), if_neg (by omega), hbo, hbs, hslice]
  rewrite [hserial, his, hio, hentries]
  cases BloomFilter.deserialize ((filterOf hash expected entries).serialize.take (filterSize expected % 2 ^ 32)) with
  | error e => rfl
  | ok f => rfl

end Lsm
end Amind
