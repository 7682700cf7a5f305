/-
# Percent-encoding

A byte may be written as a percent sign and its two hexadecimal digits. What
decodes a text takes a sign that is followed by two digits for the byte they
stand for, and every other byte for what `plain` says it is. An `Encoding` keeps
some bytes, which stand for themselves, and writes all others so; what it wrote
is read back (`decode_encode`), and has none of the bytes that are neither kept
nor digits (`not_mem_encode`).
-/
import Amind.Lib.Json

namespace Amind
namespace Percent

open Json (hexVal hexDigit)

/-- The byte that a byte and the digits behind it stand for. -/
def escaped (b : UInt8) : List UInt8 → Option UInt8
  | h :: l :: _ =>
    if b = 0x25 then (hexVal h).bind fun high => (hexVal l).map fun low => UInt8.ofNat (high * 16 + low) else none
  | _ => none

section Decode

variable (plain : UInt8 → UInt8)

/-- Decode a text of which the first bytes were read. -/
def decodeFrom : ℕ → List UInt8 → List UInt8
  | _, [] => []
  | i + 1, _ :: s => decodeFrom i s
  | 0, b :: s =>
    match escaped b s with
    | some c => c :: decodeFrom 2 s
    | none => plain b :: decodeFrom 0 s

def decode (s : List UInt8) : List UInt8 := decodeFrom plain 0 s

/-- Every text that is not empty stands for one that is not. -/
theorem decode_eq_nil_iff {s : List UInt8} : decode plain s = [] ↔ s = [] := by
  cases s with
  | nil => exact ⟨fun _ => rfl, fun _ => rfl⟩
  | cons b s =>
    have hne : decode plain (b :: s) ≠ [] := by
      unfold decode decodeFrom
      cases escaped b s <;> exact List.cons_ne_nil _ _
    exact ⟨fun h => absurd h hne, fun h => absurd h (List.cons_ne_nil _ _)⟩

end Decode

/-- A way to write texts. -/
structure Encoding where
  keep : UInt8 → Bool
  digit : ℕ → UInt8
  digit_val : ∀ n < 16, hexVal (digit n) = some n
  keep_percent : keep 0x25 = false

namespace Encoding

variable (e : Encoding)

def encodeByte (b : UInt8) : List UInt8 :=
  if e.keep b then [b] else [0x25, e.digit (b.toNat / 16), e.digit (b.toNat % 16)]

def encode (s : List UInt8) : List UInt8 := s.flatMap e.encodeByte

variable {e} {plain : UInt8 → UInt8}

theorem encode_cons (b : UInt8) (s : List UInt8) : e.encode (b :: s) = e.encodeByte b ++ e.encode s := rfl

theorem decode_encodeByte (hplain : ∀ b, e.keep b = true → plain b = b) (b : UInt8) (s : List UInt8) :
    decode plain (e.encodeByte b ++ s) = b :: decode plain s := by
  unfold encodeByte
  cases hb : e.keep b with
  | true =>
    have hnone : escaped b s = none := by
      have hne : b ≠ 0x25 := by
        rintro rfl
        rw [e.keep_percent] at hb
        cases hb
      unfold escaped
      split
      · exact if_neg hne
      · rfl
    rw [if_pos rfl, List.singleton_append, decode, decodeFrom, hnone]
    exact congrArg (· :: decode plain s) (hplain b hb)
  | false =>
    have hlt := UInt8.toNat_lt b
    have hbyte : escaped 0x25 (e.digit (b.toNat / 16) :: e.digit (b.toNat % 16) :: s) = some b := by
      rw [escaped, if_pos rfl, e.digit_val _ (by omega), e.digit_val _ (by omega)]
      refine congrArg some ?_
      dsimp only
      rw [show b.toNat / 16 * 16 + b.toNat % 16 = b.toNat by omega, UInt8.ofNat_toNat]
    rw [if_neg Bool.false_ne_true]
    change decodeFrom plain 0 (0x25 :: e.digit (b.toNat / 16) :: e.digit (b.toNat % 16) :: s) = _
    rw [decodeFrom, hbyte]
    rfl

/-- What was written is read back. -/
theorem decode_encode (hplain : ∀ b, e.keep b = true → plain b = b) : ∀ s : List UInt8,
    decode plain (e.encode s) = s
  | [] => rfl
  | b :: s => by rw [encode_cons, decode_encodeByte hplain, decode_encode hplain s]

theorem not_mem_encode {b : UInt8} (hkeep : e.keep b = false) (hdigit : hexVal b = none) (hb : b ≠ 0x25)
    (s : List UInt8) : b ∉ e.encode s := by
  intro hmem
  obtain ⟨c, -, hc⟩ := List.mem_flatMap.mp hmem
  have hlt := UInt8.toNat_lt c
  have hne : ∀ n < 16, b ≠ e.digit n := by
    rintro n hn rfl
    rw [e.digit_val n hn] at hdigit
    cases hdigit
  unfold encodeByte at hc
  split at hc
  · next hkept =>
    obtain rfl := List.mem_singleton.mp hc
    rw [hkeep] at hkept
    cases hkept
  · rcases List.mem_cons.mp hc with hc | hc
    · exact hb hc
    · rcases List.mem_cons.mp hc with hc | hc
      · exact hne _ (by omega) hc
      · exact hne _ (by omega) (List.mem_singleton.mp hc)

theorem length_le_encode : ∀ s : List UInt8, s.length ≤ (e.encode s).length
  | [] => le_rfl
  | b :: s => by
    have ih := length_le_encode s
    have hb : 1 ≤ (e.encodeByte b).length := by
      unfold encodeByte
      split <;> simp
    rw [encode_cons, List.length_append, List.length_cons]
    omega

end Encoding
end Percent
end Amind
