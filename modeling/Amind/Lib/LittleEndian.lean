/-
# Little-endian numbers in byte strings

`toLE w n` is the `w` bytes of `n`, least first; `ofLE` reads them back
(`ofLE_toLE`). `field bs off w` is the number stored in the `w` bytes from
`off` on, what a fixed-offset copy out of a buffer reads, and `pack` the bytes
of a packed structure, the widths and values of its fields in order.
-/
import Mathlib.Algebra.Ring.Nat
import Mathlib.Data.List.Basic

namespace Amind
namespace LittleEndian

/-- The `w` low bytes of `n`, least first. -/
def toLE : ℕ → ℕ → List UInt8
  | 0, _ => []
  | w + 1, n => UInt8.ofNat n :: toLE w (n / 256)

/-- The number a little-endian byte string stands for. -/
def ofLE : List UInt8 → ℕ
  | [] => 0
  | b :: bs => b.toNat + 256 * ofLE bs

/-- The number in the `w` bytes from `off` on. -/
def field (bs : List UInt8) (off w : ℕ) : ℕ := ofLE ((bs.drop off).take w)

@[simp] theorem length_toLE : ∀ w n : ℕ, (toLE w n).length = w
  | 0, _ => rfl
  | w + 1, n => by simp [toLE, length_toLE w]

theorem ofLE_toLE : ∀ w n : ℕ, ofLE (toLE w n) = n % 256 ^ w
  | 0, n => by simp [toLE, ofLE, Nat.mod_one]
  | w + 1, n => by
    have hb : (UInt8.ofNat n).toNat = n % 256 := by simp [UInt8.toNat_ofNat']
    rw [toLE, ofLE, ofLE_toLE w, hb, Nat.pow_succ', Nat.mod_mul]

/-- A number that fits its field is read back. -/
theorem ofLE_toLE_of_lt {w n : ℕ} (h : n < 256 ^ w) : ofLE (toLE w n) = n := by
  rw [ofLE_toLE, Nat.mod_eq_of_lt h]

theorem ofLE_lt : ∀ bs : List UInt8, ofLE bs < 256 ^ bs.length
  | [] => Nat.one_pos
  | b :: bs => by
    have hb : b.toNat < 256 := b.toNat_lt
    have ih := ofLE_lt bs
    rw [ofLE, List.length_cons, Nat.pow_succ']
    omega

/-- The bytes of the number that a byte string stands for. -/
theorem toLE_ofLE : ∀ bs : List UInt8, toLE bs.length (ofLE bs) = bs
  | [] => rfl
  | b :: bs => by
    have hb : b.toNat < 256 := b.toNat_lt
    have hlow : UInt8.ofNat (b.toNat + 256 * ofLE bs) = b := by
      apply UInt8.toNat_inj.mp
      rw [UInt8.toNat_ofNat']
      omega
    have hhigh : (b.toNat + 256 * ofLE bs) / 256 = ofLE bs := by omega
    rw [List.length_cons, ofLE, toLE, hlow, hhigh, toLE_ofLE bs]

/-- A field that starts where the bytes before it end. -/
theorem field_eq {bs p m : List UInt8} {off w : ℕ} (h : p ++ m <+: bs) (ho : p.length = off)
    (hw : m.length = w) : field bs off w = ofLE m := by
  obtain ⟨post, rfl⟩ := h
  subst ho hw
  simp [field, List.append_assoc]

/-- The field a byte string starts with. -/
theorem field_zero {w n : ℕ} {rest : List UInt8} (h : n < 256 ^ w) : field (toLE w n ++ rest) 0 w = n := by
  rw [field, List.drop_zero, List.take_left' (length_toLE w n), ofLE_toLE_of_lt h]

/-- The bytes of a packed structure. -/
def pack (fs : List (ℕ × ℕ)) : List UInt8 := fs.flatMap fun f => toLE f.1 f.2

theorem length_pack : ∀ fs : List (ℕ × ℕ), (pack fs).length = (fs.map (·.1)).sum
  | [] => rfl
  | f :: fs => by
    have ih := length_pack fs
    unfold pack at ih ⊢
    rw [List.flatMap_cons, List.length_append, length_toLE, ih, List.map_cons, List.sum_cons]

/-- A field of a packed structure is read back from where it is. -/
theorem field_pack {fs : List (ℕ × ℕ)} {rest : List UInt8} {i w n off : ℕ} (hf : fs[i]? = some (w, n))
    (ho : ((fs.map (·.1)).take i).sum = off) (hn : n < 256 ^ w) : field (pack fs ++ rest) off w = n := by
  obtain ⟨hi, hget⟩ := List.getElem?_eq_some_iff.mp hf
  have hsplit : pack fs = pack (fs.take i) ++ toLE w n ++ pack (fs.drop (i + 1)) := by
    have hcut : fs = fs.take i ++ (w, n) :: fs.drop (i + 1) := by
      rw [← hget, List.getElem_cons_drop, List.take_append_drop]
    conv_lhs => rw [hcut]
    simp [pack]
  rw [← List.map_take] at ho
  rw [field_eq _ ((length_pack _).trans ho) (length_toLE w n),
    ofLE_toLE_of_lt hn]
  rw [hsplit, List.append_assoc]
  exact List.prefix_append _ _

/-- The `n` bytes from `off` on. -/
def slice (bs : List UInt8) (off n : ℕ) : List UInt8 := (bs.drop off).take n

theorem slice_eq {bs p m : List UInt8} {off n : ℕ} (h : p ++ m <+: bs) (ho : p.length = off)
    (hn : m.length = n) : slice bs off n = m := by
  obtain ⟨post, rfl⟩ := h
  subst ho hn
  simp [slice, List.append_assoc]

theorem length_slice_le (bs : List UInt8) (off n : ℕ) : (slice bs off n).length ≤ n := List.length_take_le _ _

theorem length_slice {bs : List UInt8} {off n : ℕ} (h : off + n ≤ bs.length) : (slice bs off n).length = n := by
  unfold slice
  rw [List.length_take, List.length_drop]
  omega

theorem drop_slice (bs : List UInt8) (off n m : ℕ) : (slice bs off n).drop m = slice bs (off + m) (n - m) := by
  unfold slice
  rw [List.drop_take, List.drop_drop]

/-- The first field of a part that is not shorter. -/
theorem field_slice {bs : List UInt8} {off n w : ℕ} (h : w ≤ n) : field (slice bs off n) 0 w = field bs off w := by
  unfold field slice
  rw [List.drop_zero, List.take_take, Nat.min_eq_left h]

end LittleEndian
end Amind
