/-
# Bloom filters

A key sets the bits at `h₁ + i · h₂`, for each of the hash functions `i`, and
may be contained if all of them are set. `Covers.mayContain` says that the keys
that were added may be contained, `deserialize_serialize` that a filter is read
back.

The hash function is a parameter. A filter without bits divides by zero.
-/
import Amind.Lsm.Block

namespace Amind
namespace Lsm

open LittleEndian

structure BloomFilter where
  bits : Bytes
  numBits : ℕ
  numHashFuncs : ℕ

namespace BloomFilter

def BLOOM_BITS_PER_KEY : ℕ := 10

/-- The bits for so many keys, at least 64 and whole bytes. -/
def bitsFor (expected : UInt64) : ℕ :=
  (max 64 (expected.toNat * BLOOM_BITS_PER_KEY % 2 ^ 64) + 7) % 2 ^ 64 / 8 * 8

/-- The bits of a key times ln 2, rounded, at least 1 and at most 30. -/
def hashFuncs : ℕ := max 1 (min 30 ((BLOOM_BITS_PER_KEY * 6931471805599453 + 10 ^ 16 / 2) / 10 ^ 16))

def new (expected : UInt64) : BloomFilter where
  bits := List.replicate (bitsFor expected / 8) 0
  numBits := bitsFor expected
  numHashFuncs := hashFuncs

def mask (i : ℕ) : UInt8 := 1 <<< UInt8.ofNat (i % 8)

def setBit (bits : Bytes) (i : ℕ) : Bytes := bits.modify (i / 8) (· ||| mask i)

def testBit (bits : Bytes) (i : ℕ) : Bool := bits.getD (i / 8) 0 &&& mask i ≠ 0

variable (hash : Key → UInt64 → UInt64)

/-- The bits of a key. -/
def bitIndices (f : BloomFilter) (key : Key) : List ℕ :=
  (List.range f.numHashFuncs).map fun i => (hash key 0 + UInt64.ofNat i * hash key 1).toNat % f.numBits

/-- There are bits to take a number modulo of, or none is taken. -/
def checkBits (f : BloomFilter) : Except Exn Unit :=
  if f.numBits = 0 ∧ 0 < f.numHashFuncs then .error ⟨.trap, "division by zero"⟩ else .ok ()

/-- The filter with the bits of the key. -/
def put (f : BloomFilter) (key : Key) : BloomFilter :=
  { f with bits := (f.bitIndices hash key).foldl setBit f.bits }

def add (f : BloomFilter) (key : Key) : Except Exn BloomFilter :=
  match f.checkBits with
  | .error e => .error e
  | .ok () => .ok (f.put hash key)

def mayContain (f : BloomFilter) (key : Key) : Except Exn Bool :=
  match f.checkBits with
  | .error e => .error e
  | .ok () => .ok ((f.bitIndices hash key).all (testBit f.bits))

def serialize (f : BloomFilter) : Bytes := toLE 4 f.numHashFuncs ++ f.bits

def deserialize (data : Bytes) : Except Exn BloomFilter :=
  if data.length < 4 then .error ⟨.invalidArgument, "BloomFilter data too small: need at least 4 bytes"⟩
  else .ok ⟨data.drop 4, (data.drop 4).length * 8, field data 0 4⟩

/-! ### Bits -/

theorem mask_ne_zero (i : ℕ) : mask i ≠ 0 := by
  have hall : ∀ j < 8, (1 : UInt8) <<< UInt8.ofNat j ≠ 0 := by decide
  exact hall (i % 8) (Nat.mod_lt _ (by decide))

/-- A bit that is set stays set, and the one that is set now is set. -/
theorem or_and_ne_zero {b m m' : UInt8} (h : b &&& m ≠ 0 ∨ m' &&& m ≠ 0) : (b ||| m') &&& m ≠ 0 := by
  have hdistrib : (b ||| m') &&& m = (b &&& m) ||| (m' &&& m) := by
    refine UInt8.toBitVec_inj.1 (BitVec.eq_of_getLsbD_eq fun i _ => ?_)
    simp only [UInt8.toBitVec_and, UInt8.toBitVec_or, BitVec.getLsbD_and, BitVec.getLsbD_or, Bool.and_or_distrib_right]
  rw [hdistrib, ne_eq, UInt8.or_eq_zero_iff]
  exact fun hz => h.elim (· hz.1) (· hz.2)

theorem length_setBit (bits : Bytes) (i : ℕ) : (setBit bits i).length = bits.length := List.length_modify _ _ _

theorem testBit_setBit {bits : Bytes} {i j : ℕ} (h : testBit bits j = true ∨ i = j ∧ j / 8 < bits.length) :
    testBit (setBit bits i) j = true := by
  rw [testBit, List.getD_eq_getElem?_getD] at h ⊢
  rw [setBit, List.getElem?_modify]
  cases hb : bits[j / 8]? with
  | none =>
    rw [hb] at h
    rcases h with h | ⟨-, h⟩
    · exact absurd (UInt8.zero_and) (of_decide_eq_true h)
    · exact absurd h (Nat.not_lt.mpr (List.getElem?_eq_none_iff.mp hb))
  | some b =>
    rw [hb] at h
    refine decide_eq_true ?_
    show (if i / 8 = j / 8 then b ||| mask i else b) &&& mask j ≠ 0
    rcases h with h | ⟨rfl, -⟩
    · split
      · exact or_and_ne_zero (.inl (of_decide_eq_true h))
      · exact of_decide_eq_true h
    · rw [if_pos rfl]
      exact or_and_ne_zero (.inr (by rw [UInt8.and_self]; exact mask_ne_zero _))

/-- The bits that are set one after another. -/
theorem testBit_foldl {j : ℕ} : ∀ (is : List ℕ) (bits : Bytes), (testBit bits j = true ∨ j ∈ is ∧ j / 8 < bits.length) →
    testBit (is.foldl setBit bits) j = true
  | [], _, h => h.elim id fun h => absurd h.1 List.not_mem_nil
  | i :: is, bits, h => by
    rw [List.foldl_cons]
    refine testBit_foldl is _ ?_
    rcases h with h | ⟨hm, hlt⟩
    · exact .inl (testBit_setBit (.inl h))
    · rcases List.mem_cons.mp hm with rfl | hm
      · exact .inl (testBit_setBit (.inr ⟨rfl, hlt⟩))
      · exact .inr ⟨hm, by rwa [length_setBit]⟩

theorem length_foldl_setBit (is : List ℕ) (bits : Bytes) : (is.foldl setBit bits).length = bits.length :=
  List.foldlRecOn (motive := fun b => b.length = bits.length) is _ rfl fun b h i _ => (length_setBit b i).trans h

/-! ### Adding keys -/

variable {hash}

/-- The filter for the keys. -/
def ofKeys (hash : Key → UInt64 → UInt64) (expected : UInt64) (keys : List Key) : BloomFilter :=
  keys.foldl (put hash) (new expected)

/-- Whole bytes of bits, and those of the keys set. -/
structure Covers (hash : Key → UInt64 → UInt64) (f : BloomFilter) (keys : List Key) : Prop where
  length : f.bits.length * 8 = f.numBits
  set : 0 < f.numBits → ∀ key ∈ keys, ∀ i ∈ f.bitIndices hash key, testBit f.bits i = true

variable {expected : UInt64} {f : BloomFilter} {keys : List Key}

theorem Covers.put (h : Covers hash f keys) (key : Key) : Covers hash (f.put hash key) (keys ++ [key]) where
  length := by
    show ((f.bitIndices hash key).foldl setBit f.bits).length * 8 = _
    rw [length_foldl_setBit, h.length]
    rfl
  set := fun hpos key' hkey' i hi => by
    refine testBit_foldl _ _ ?_
    rcases List.mem_append.mp hkey' with hold | hnew
    · exact .inl (h.set hpos key' hold i hi)
    · rw [List.mem_singleton.mp hnew] at hi
      obtain ⟨j, hj, rfl⟩ := List.mem_map.mp hi
      have hlt : (hash key 0 + UInt64.ofNat j * hash key 1).toNat % f.numBits < f.numBits := Nat.mod_lt _ hpos
      have hlen := h.length
      refine .inr ⟨hi, ?_⟩
      show (hash key 0 + UInt64.ofNat j * hash key 1).toNat % f.numBits / 8 < f.bits.length
      omega

theorem Covers.foldl : ∀ (more : List Key) {f : BloomFilter} {keys : List Key}, Covers hash f keys →
    Covers hash (more.foldl (BloomFilter.put hash) f) (keys ++ more)
  | [], _, _, h => by rwa [List.append_nil]
  | key :: more, _, keys, h => by
    have ih := Covers.foldl more (h.put key)
    rwa [List.append_assoc] at ih

theorem add_eq {f : BloomFilter} (h : 0 < f.numBits) (key : Key) : f.add hash key = .ok (f.put hash key) := by
  have hcheck : f.checkBits = .ok () := if_neg fun hz => by omega
  rw [BloomFilter.add, hcheck]

theorem mayContain_eq {f : BloomFilter} (h : 0 < f.numBits) (key : Key) :
    f.mayContain hash key = .ok ((f.bitIndices hash key).all (testBit f.bits)) := by
  have hcheck : f.checkBits = .ok () := if_neg fun hz => by omega
  rw [mayContain, hcheck]

/-- The keys that were added may be contained. -/
theorem Covers.mayContain (h : Covers hash f keys) (hpos : 0 < f.numBits) {key : Key} (hkey : key ∈ keys) :
    f.mayContain hash key = .ok true := by
  rw [mayContain_eq hpos, List.all_eq_true.mpr (h.set hpos key hkey)]

/-- A filter is read back. -/
theorem deserialize_serialize {f : BloomFilter} (hlen : f.bits.length * 8 = f.numBits)
    (hk : f.numHashFuncs < 256 ^ 4) : deserialize f.serialize = .ok f := by
  have hsize : f.serialize.length = 4 + f.bits.length := by rw [serialize, List.length_append, length_toLE]
  have hdrop : f.serialize.drop 4 = f.bits := List.drop_left' (length_toLE _ _)
  have hfield : field f.serialize 0 4 = f.numHashFuncs := field_zero hk
  rw [deserialize, if_neg (by omega), hdrop, hfield, hlen]

/-- A filter of its size with the bits of the keys. -/
structure Filled (hash : Key → UInt64 → UInt64) (expected : UInt64) (f : BloomFilter) (keys : List Key) : Prop where
  numBits : f.numBits = bitsFor expected
  numHashFuncs : f.numHashFuncs = hashFuncs
  length : f.bits.length * 8 = bitsFor expected
  set : 0 < bitsFor expected → ∀ key ∈ keys, ∀ i ∈ f.bitIndices hash key, testBit f.bits i = true

theorem Filled.covers (h : Filled hash expected f keys) : Covers hash f keys :=
  ⟨h.length.trans h.numBits.symm, fun hpos => h.set (h.numBits ▸ hpos)⟩

theorem filled_new : Filled hash expected (new expected) [] where
  numBits := rfl
  numHashFuncs := rfl
  length := by
    simp only [new, List.length_replicate]
    unfold bitsFor
    omega
  set := fun _ _ h => absurd h List.not_mem_nil

theorem Filled.put (h : Filled hash expected f keys) (key : Key) :
    Filled hash expected (f.put hash key) (keys ++ [key]) where
  numBits := h.numBits
  numHashFuncs := h.numHashFuncs
  length := (h.covers.put key).length.trans h.numBits
  set := fun hpos => (h.covers.put key).set (h.numBits.symm ▸ hpos)

theorem filled_foldl : ∀ (more : List Key) {f : BloomFilter} {keys : List Key}, Filled hash expected f keys →
    Filled hash expected (more.foldl (BloomFilter.put hash) f) (keys ++ more)
  | [], _, _, h => by rwa [List.append_nil]
  | key :: more, _, keys, h => by
    have ih := filled_foldl more (h.put key)
    rwa [List.append_assoc] at ih

theorem filled_ofKeys (keys : List Key) : Filled hash expected (ofKeys hash expected keys) keys :=
  filled_foldl keys filled_new

theorem Filled.add (h : Filled hash expected f keys) (hpos : 0 < bitsFor expected) (key : Key) :
    f.add hash key = .ok (f.put hash key) :=
  add_eq (h.numBits ▸ hpos) key

theorem Filled.mayContain (h : Filled hash expected f keys) (hpos : 0 < bitsFor expected) {key : Key}
    (hkey : key ∈ keys) : f.mayContain hash key = .ok true :=
  h.covers.mayContain (h.numBits ▸ hpos) hkey

theorem Filled.length_serialize (h : Filled hash expected f keys) : f.serialize.length = 4 + bitsFor expected / 8 := by
  have hlen := h.length
  rw [serialize, List.length_append, length_toLE]
  omega

theorem Filled.deserialize_serialize (h : Filled hash expected f keys) : deserialize f.serialize = .ok f :=
  BloomFilter.deserialize_serialize h.covers.length (by rw [h.numHashFuncs]; decide)

end BloomFilter

end Lsm
end Amind
