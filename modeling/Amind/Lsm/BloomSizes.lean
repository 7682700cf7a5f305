/-
# Bloom filters of every size

A filter is constructed for a number of keys and of bits for each. The product
is taken in 64 bits, raised to 64 at least ("to avoid degenerate cases"), and
rounded up to whole bytes, again in 64 bits: from `2 ^ 64 - 7` on the rounding
wraps and leaves no bits at all, and adding a key takes a remainder by zero.

A filter that has bits covers the keys added to it, is read back as it was, and
so is the filter of a table that a reader loads.
-/
import Amind.Lsm.SSTableFile

namespace Amind
namespace Lsm

open LittleEndian

namespace BloomFilter

/-! ### Construction -/

/-- The product of keys and bits, as it comes out in 64 bits. -/
def bitsWanted (expected : UInt64) (bitsPerKey : UInt32) : ℕ := expected.toNat * bitsPerKey.toNat % 2 ^ 64

/-- The number of bits: at least 64, and whole bytes. -/
def sizedBits (expected : UInt64) (bitsPerKey : UInt32) : ℕ :=
  (max 64 (bitsWanted expected bitsPerKey) + 7) % 2 ^ 64 / 8 * 8

/-- The bits of a key times ln 2, rounded, at least 1 and at most 30. -/
def sizedHashFuncs (bitsPerKey : UInt32) : ℕ :=
  max 1 (min 30 ((bitsPerKey.toNat * 6931471805599453 + 10 ^ 16 / 2) / 10 ^ 16))

/-- A new filter for so many keys, with so many bits for each. -/
def sized (expected : UInt64) (bitsPerKey : UInt32) : BloomFilter where
  bits := List.replicate (sizedBits expected bitsPerKey / 8) 0
  numBits := sizedBits expected bitsPerKey
  numHashFuncs := sizedHashFuncs bitsPerKey

theorem sizedHashFuncs_bounds (bitsPerKey : UInt32) :
    0 < sizedHashFuncs bitsPerKey ∧ sizedHashFuncs bitsPerKey < 256 ^ 4 := by
  unfold sizedHashFuncs
  omega

/-- The rounding wraps to no bits exactly from `2 ^ 64 - 7` on. -/
theorem sizedBits_pos_iff (expected : UInt64) (bitsPerKey : UInt32) :
    0 < sizedBits expected bitsPerKey ↔ bitsWanted expected bitsPerKey ≤ 2 ^ 64 - 8 := by
  have hlt : bitsWanted expected bitsPerKey < 2 ^ 64 := Nat.mod_lt _ (by decide)
  unfold sizedBits
  omega

variable (hash : Key → UInt64 → UInt64)

theorem covers_sized (expected : UInt64) (bitsPerKey : UInt32) : Covers hash (sized expected bitsPerKey) [] where
  length := by
    simp only [sized, List.length_replicate, sizedBits]
    omega
  set := fun _ _ h => absurd h List.not_mem_nil

/-! ### Adding keys and asking for them -/

/-- Add the keys one after the other. -/
def addAll (f : BloomFilter) (keys : List Key) : Except Exn BloomFilter := keys.foldlM (add hash) f

end BloomFilter

/-- What a reader says of a key. -/
def SSTableReader.mayContain (hash : Key → UInt64 → UInt64) (r : SSTableReader) (key : Key) : Except Exn Bool :=
  r.bloomFilter.mayContain hash key

namespace BloomFilter

variable {hash}

theorem addAll_eq : ∀ {keys : List Key} {f : BloomFilter}, 0 < f.numBits →
    f.addAll hash keys = .ok (keys.foldl (put hash) f)
  | [], _, _ => rfl
  | key :: keys, f, h => by
    have ih := @addAll_eq keys (f.put hash key) h
    simp only [addAll, List.foldlM_cons, List.foldl_cons, add_eq h] at ih ⊢
    exact ih

theorem foldl_put_numBits : ∀ (keys : List Key) (f : BloomFilter), (keys.foldl (put hash) f).numBits = f.numBits
  | [], _ => rfl
  | key :: keys, f => foldl_put_numBits keys (f.put hash key)

theorem foldl_put_numHashFuncs : ∀ (keys : List Key) (f : BloomFilter),
    (keys.foldl (put hash) f).numHashFuncs = f.numHashFuncs
  | [], _ => rfl
  | key :: keys, f => foldl_put_numHashFuncs keys (f.put hash key)

theorem addAll_trap {key : Key} {keys : List Key} {f : BloomFilter} (h : f.numBits = 0) (hk : 0 < f.numHashFuncs) :
    f.addAll hash (key :: keys) = .error ⟨.trap, "division by zero"⟩ := by
  have hadd : f.add hash key = .error ⟨.trap, "division by zero"⟩ := by
    rw [add, checkBits, if_pos ⟨h, hk⟩]
  rw [addAll, List.foldlM_cons, hadd]
  rfl

/-- A reader has the filter whose bytes are in the place the footer gives. -/
theorem load_bloomFilter {path : String} {data : Bytes} {r : SSTableReader} {f : BloomFilter}
    (h : SSTableReader.load path data = .ok r) (hf : deserialize f.serialize = .ok f)
    (hdata : slice data r.footer.bloomFilterOffset r.footer.bloomFilterSize = f.serialize) : r.bloomFilter = f := by
  simp only [SSTableReader.load] at h
  split at h
  · cases h
  · split at h
    · cases h
    · split at h
      · cases h
      · split at h
        · cases h
        · split at h
          · cases h
          · rename_i f' hf'
            cases h
            dsimp only at hdata
            rw [hdata, hf] at hf'
            exact (Except.ok.inj hf').symm

variable (hash)

/-- The keys can be added to a new filter, which then may contain them, as it is
and read back; and read back, also by a reader of a table, it answers for every
key as before. -/
def NoFalseNegatives (new : BloomFilter) (keys : List Key) : Prop :=
  ∃ f, new.addAll hash keys = .ok f ∧ (∀ key ∈ keys, f.mayContain hash key = .ok true) ∧
    (∃ f', deserialize f.serialize = .ok f' ∧ (∀ key ∈ keys, f'.mayContain hash key = .ok true) ∧
      ∀ key, f'.mayContain hash key = f.mayContain hash key) ∧
    ∀ path data r, SSTableReader.load path data = .ok r →
      slice data r.footer.bloomFilterOffset r.footer.bloomFilterSize = f.serialize →
      ∀ key, r.mayContain hash key = f.mayContain hash key

/-- **A new filter never hides a key exactly if the number of its bits does not
wrap to none, or no key is added.** -/
theorem noFalseNegatives_iff (expected : UInt64) (bitsPerKey : UInt32) (keys : List Key) :
    NoFalseNegatives hash (sized expected bitsPerKey) keys ↔
      bitsWanted expected bitsPerKey ≤ 2 ^ 64 - 8 ∨ keys = [] := by
  obtain ⟨hk, hk'⟩ := sizedHashFuncs_bounds bitsPerKey
  have hcovers := (covers_sized hash expected bitsPerKey).foldl keys
  rw [List.nil_append] at hcovers
  have hread : deserialize (keys.foldl (put hash) (sized expected bitsPerKey)).serialize =
      .ok (keys.foldl (put hash) (sized expected bitsPerKey)) :=
    deserialize_serialize hcovers.length (by rwa [foldl_put_numHashFuncs])
  constructor
  · rintro ⟨f, hadd, -⟩
    by_contra hcon
    obtain ⟨hwrap, hne⟩ := not_or.mp hcon
    obtain ⟨key, rest, rfl⟩ := List.exists_cons_of_ne_nil hne
    rw [← sizedBits_pos_iff] at hwrap
    rw [addAll_trap (Nat.eq_zero_of_not_pos hwrap) hk] at hadd
    cases hadd
  · intro h
    have hadd : (sized expected bitsPerKey).addAll hash keys =
        .ok (keys.foldl (put hash) (sized expected bitsPerKey)) := by
      obtain h | rfl := h
      · exact addAll_eq ((sizedBits_pos_iff expected bitsPerKey).mpr h)
      · rfl
    have hmay : ∀ key ∈ keys, (keys.foldl (put hash) (sized expected bitsPerKey)).mayContain hash key = .ok true := by
      intro key hkey
      obtain h | rfl := h
      · exact hcovers.mayContain (by rw [foldl_put_numBits]; exact (sizedBits_pos_iff expected bitsPerKey).mpr h) hkey
      · cases hkey
    refine ⟨_, hadd, hmay, ⟨_, hread, hmay, fun _ => rfl⟩, fun path data r hload hdata key => ?_⟩
    rw [SSTableReader.mayContain, load_bloomFilter hload hread hdata]

/-- One bit for each of `2 ^ 64 - 1` keys. -/
theorem not_noFalseNegatives :
    ¬∀ (expected : UInt64) (bitsPerKey : UInt32) (keys : List Key),
      NoFalseNegatives (fun key _ => key) (sized expected bitsPerKey) keys := by
  intro h
  have hwanted : bitsWanted (UInt64.ofNat (2 ^ 64 - 1)) 1 = 2 ^ 64 - 1 := by simp [bitsWanted]
  have hwrap : (sized (UInt64.ofNat (2 ^ 64 - 1)) 1).numBits = 0 := by
    have := sizedBits_pos_iff (UInt64.ofNat (2 ^ 64 - 1)) 1
    rw [hwanted] at this
    simp only [sized]
    omega
  obtain ⟨f, hadd, -⟩ := h (UInt64.ofNat (2 ^ 64 - 1)) 1 [0]
  rw [addAll_trap hwrap (sizedHashFuncs_bounds 1).1] at hadd
  cases hadd

end BloomFilter
end Lsm
end Amind
