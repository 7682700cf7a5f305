/-
# JSON texts

The text a value is dumped as, and reading a text: no blanks are dumped, and
strings are dumped with control characters, quotes and backslashes escaped. A
zero byte behind a value ends the text.

What is dumped is one line (`ge_of_mem_dump`), what is read is well formed
(`wellFormed_of_parse`), and the start of a text that is read as an object is not read
(`parse_take_of_readValue`).

How a number with a fraction or an exponent is written is a parameter.
-/
import Mathlib.Algebra.Order.BigOperators.Group.List
import Mathlib.Data.List.Lex
import Amind.Lib.Json

namespace Amind
namespace Json

open Keyed (insertKey ofPairs Ascending)

/-- How a number that is not an integer is written, and read, if it is not too
large. -/
structure Floating (D : Type) where
  write : D → List UInt8
  read : List UInt8 → Option D

variable {D : Type}

/-! ### Dumping -/

/-- A byte of a string as it is dumped. -/
def escape (b : UInt8) : List UInt8 :=
  if b = 0x22 then [0x5C, 0x22]
  else if b = 0x5C then [0x5C, 0x5C]
  else if b = 0x08 then [0x5C, 0x62]
  else if b = 0x0C then [0x5C, 0x66]
  else if b = 0x0A then [0x5C, 0x6E]
  else if b = 0x0D then [0x5C, 0x72]
  else if b = 0x09 then [0x5C, 0x74]
  else if b < 0x20 then [0x5C, 0x75, 48, 48, hexDigit (b.toNat / 16), hexDigit (b.toNat % 16)]
  else [b]

def dumpString (s : List UInt8) : List UInt8 := 0x22 :: (s.flatMap escape ++ [0x22])

variable (fl : Floating D)

mutual

def dump : Json D → List UInt8
  | .null => [0x6E, 0x75, 0x6C, 0x6C]
  | .bool true => [0x74, 0x72, 0x75, 0x65]
  | .bool false => [0x66, 0x61, 0x6C, 0x73, 0x65]
  | .int n => dumpInt n
  | .float x => fl.write x
  | .str s => dumpString s.val
  | .arr [] => [0x5B, 0x5D]
  | .arr (j :: js) => 0x5B :: (dump j ++ dumpElements js)
  | .obj [] => [0x7B, 0x7D]
  | .obj ((k, j) :: ms) => 0x7B :: (dumpString k.val ++ 0x3A :: (dump j ++ dumpMembers ms))

/-- The elements after the first. -/
def dumpElements : List (Json D) → List UInt8
  | [] => [0x5D]
  | j :: js => 0x2C :: (dump j ++ dumpElements js)

/-- The members after the first. -/
def dumpMembers : List (Utf8Text × Json D) → List UInt8
  | [] => [0x7D]
  | (k, j) :: ms => 0x2C :: (dumpString k.val ++ 0x3A :: (dump j ++ dumpMembers ms))

end

/-! ### Reading -/

def skip (s : List UInt8) : List UInt8 := s.dropWhile isBlank

/-- Digits with no zero in front. -/
def isNat (s : List UInt8) : Bool := s ≠ [] ∧ s.all isDigit = true ∧ (s.head? = some 48 → s.length = 1)

/-- What follows the integral part of a number: a fraction, an exponent, or
both. -/
def isTail (s : List UInt8) : Bool :=
  match s with
  | 0x2E :: f =>
    let rest := f.dropWhile isDigit
    rest.length < f.length ∧ (rest = [] ∨ isExponent rest = true)
  | s => isExponent s
where
  isExponent : List UInt8 → Bool
    | e :: s =>
      let digits := match s with
        | 0x2B :: s => s
        | 0x2D :: s => s
        | s => s
      (e = 0x65 ∨ e = 0x45) ∧ digits ≠ [] ∧ digits.all isDigit = true
    | [] => false

/-- A number: an integer if it is written as one and fits 64 bits. -/
def readNumber (s : List UInt8) : Option (Json D) :=
  let body := if s.head? = some 0x2D then s.tail else s
  let int := body.takeWhile isDigit
  if isNat int = false then none
  else if int.length = body.length then
    let n : ℤ := if s.head? = some 0x2D then -(readNat int : ℤ) else readNat int
    if -2 ^ 63 ≤ n ∧ n < 2 ^ 64 then some (.int n) else (fl.read s).map .float
  else if isTail (body.drop int.length) then (fl.read s).map .float
  else none

/-- The number of four hexadecimal digits. -/
def hexCode (a b c d : UInt8) : Option ℕ :=
  (hexVal a).bind fun a => (hexVal b).bind fun b => (hexVal c).bind fun c => (hexVal d).map fun d =>
    4096 * a + 256 * b + 16 * c + d

/-- Four hexadecimal digits. -/
def hex4 : List UInt8 → Option (ℕ × List UInt8)
  | a :: b :: c :: d :: s => (hexCode a b c d).map fun n => (n, s)
  | _ => none

/-- The character of an escape of one letter. -/
def unescape (b : UInt8) : Option UInt8 :=
  if b = 0x22 then some 0x22
  else if b = 0x5C then some 0x5C
  else if b = 0x2F then some 0x2F
  else if b = 0x62 then some 0x08
  else if b = 0x66 then some 0x0C
  else if b = 0x6E then some 0x0A
  else if b = 0x72 then some 0x0D
  else if b = 0x74 then some 0x09
  else none

/-- A code point escaped by its number, which may take two escapes. -/
def readEscaped (s : List UInt8) : Option (List UInt8 × List UInt8) :=
  (hex4 s).bind fun (hi, s) =>
    if hi < 0xD800 ∨ 0xDFFF < hi then some (Utf8.encode hi, s)
    else if 0xDBFF < hi then none
    else if s.take 2 = [0x5C, 0x75] then
      (hex4 (s.drop 2)).bind fun (lo, s) =>
        if 0xDC00 ≤ lo ∧ lo ≤ 0xDFFF then
          some (Utf8.encode (0x10000 + 0x400 * (hi - 0xD800) + (lo - 0xDC00)), s)
        else none
    else none

/-- The rest of a string, up to the quote that ends it. -/
def readChars : ℕ → List UInt8 → Option (List UInt8 × List UInt8)
  | 0, _ => none
  | _ + 1, [] => none
  | n + 1, b :: s =>
    if b = 0x22 then some ([], s)
    else if b < 0x20 then none
    else if b = 0x5C then
      match s with
      | [] => none
      | e :: s =>
        if e = 0x75 then (readEscaped s).bind fun (c, s) => (readChars n s).map fun (cs, s) => (c ++ cs, s)
        else (unescape e).bind fun c => (readChars n s).map fun (cs, s) => (c :: cs, s)
    else (readChars n s).map fun (cs, s) => (b :: cs, s)

/-- A string, after the quote that starts it. -/
def readString (s : List UInt8) : Option (Utf8Text × List UInt8) :=
  (readChars (s.length + 1) s).bind fun (cs, s) =>
    if h : Utf8.valid cs = true then some (⟨cs, h⟩, s) else none

mutual

/-- A value, with no blanks before it. -/
def readValue : ℕ → List UInt8 → Option (Json D × List UInt8)
  | 0, _ => none
  | _ + 1, [] => none
  | n + 1, b :: s =>
    if b = 0x22 then (readString s).map fun (t, s) => (.str t, s)
    else if b = 0x5B then
      if (skip s).head? = some 0x5D then some (.arr [], (skip s).tail)
      else (readElements n (skip s)).map fun (js, s) => (.arr js, s)
    else if b = 0x7B then
      if (skip s).head? = some 0x7D then some (.obj [], (skip s).tail)
      else (readMembers n (skip s)).map fun (ms, s) => (.obj (ofPairs ms), s)
    else if b = 0x6E then if s.take 3 = [0x75, 0x6C, 0x6C] then some (.null, s.drop 3) else none
    else if b = 0x74 then if s.take 3 = [0x72, 0x75, 0x65] then some (.bool true, s.drop 3) else none
    else if b = 0x66 then if s.take 4 = [0x61, 0x6C, 0x73, 0x65] then some (.bool false, s.drop 4) else none
    else (readNumber fl ((b :: s).takeWhile isNumeric)).map fun j => (j, (b :: s).dropWhile isNumeric)

/-- One element or more, and the bracket after them. -/
def readElements : ℕ → List UInt8 → Option (List (Json D) × List UInt8)
  | 0, _ => none
  | n + 1, s =>
    (readValue n s).bind fun (j, s) =>
      if (skip s).head? = some 0x5D then some ([j], (skip s).tail)
      else if (skip s).head? = some 0x2C then
        (readElements n (skip (skip s).tail)).map fun (js, s) => (j :: js, s)
      else none

/-- One member or more, and the brace after them. -/
def readMembers : ℕ → List UInt8 → Option (List (Utf8Text × Json D) × List UInt8)
  | 0, _ => none
  | n + 1, s =>
    if s.head? = some 0x22 then
      (readString s.tail).bind fun (k, s) =>
        if (skip s).head? = some 0x3A then
          (readValue n (skip (skip s).tail)).bind fun (j, s) =>
            if (skip s).head? = some 0x7D then some ([(k, j)], (skip s).tail)
            else if (skip s).head? = some 0x2C then
              (readMembers n (skip (skip s).tail)).map fun (ms, s) => ((k, j) :: ms, s)
            else none
        else none
    else none

end

/-- Read a text. A byte order mark in front is skipped, and a zero byte behind
the value ends the text. -/
def parse (s : List UInt8) : Option (Json D) :=
  let s := if s.take 3 = [0xEF, 0xBB, 0xBF] then s.drop 3 else s
  (readValue fl (s.length + 1) (skip s)).bind fun (j, s) =>
    if skip s = [] ∨ (skip s).head? = some 0 then some j else none

/-! ### Strings come back -/

theorem readEscaped_control {b : UInt8} (h : b < 0x20) (s : List UInt8) :
    readEscaped (48 :: 48 :: hexDigit (b.toNat / 16) :: hexDigit (b.toNat % 16) :: s) = some ([b], s) := by
  have hb : b.toNat < 32 := UInt8.lt_iff_toNat_lt.mp h
  have hzero : hexVal 48 = some 0 := by decide
  have hhi := hexVal_hexDigit (b.toNat / 16) (by omega)
  have hlo := hexVal_hexDigit (b.toNat % 16) (by omega)
  have hcode : 4096 * 0 + 256 * 0 + 16 * (b.toNat / 16) + b.toNat % 16 = b.toNat := by omega
  have hencode : Utf8.encode b.toNat = [b] := by
    unfold Utf8.encode
    rw [if_pos (by omega), UInt8.ofNat_toNat]
  have hhex : hex4 (48 :: 48 :: hexDigit (b.toNat / 16) :: hexDigit (b.toNat % 16) :: s) = some (b.toNat, s) := by
    simp only [hex4, hexCode, hzero, hhi, hlo, Option.bind_some, Option.map_some, hcode]
  unfold readEscaped
  rw [hhex, Option.bind_some]
  dsimp only
  rw [if_pos (by omega), hencode]

/-- One byte of a string. -/
theorem readChars_escape (n : ℕ) (b : UInt8) (s : List UInt8) :
    readChars (n + 1) (escape b ++ s) = (readChars n s).map fun r => (b :: r.1, r.2) := by
  -- an escape of one letter
  have hletter : ∀ e c : UInt8, e ≠ 0x75 → unescape e = some c →
      readChars (n + 1) ([0x5C, e] ++ s) = (readChars n s).map fun r => (c :: r.1, r.2) := by
    intro e c he hc
    have h₁ : (0x5C : UInt8) ≠ 0x22 := by decide
    have h₂ : ¬ (0x5C : UInt8) < 0x20 := by decide
    simp only [List.cons_append, List.nil_append, readChars, if_neg h₁, if_neg h₂, if_pos, if_neg he, hc,
      Option.bind_some]
  unfold escape
  by_cases h₁ : b = 0x22
  · rw [if_pos h₁, h₁]
    exact hletter _ _ (by decide) rfl
  rw [if_neg h₁]
  by_cases h₂ : b = 0x5C
  · rw [if_pos h₂, h₂]
    exact hletter _ _ (by decide) rfl
  rw [if_neg h₂]
  by_cases h₃ : b = 0x08
  · rw [if_pos h₃, h₃]
    exact hletter _ _ (by decide) rfl
  rw [if_neg h₃]
  by_cases h₄ : b = 0x0C
  · rw [if_pos h₄, h₄]
    exact hletter _ _ (by decide) rfl
  rw [if_neg h₄]
  by_cases h₅ : b = 0x0A
  · rw [if_pos h₅, h₅]
    exact hletter _ _ (by decide) rfl
  rw [if_neg h₅]
  by_cases h₆ : b = 0x0D
  · rw [if_pos h₆, h₆]
    exact hletter _ _ (by decide) rfl
  rw [if_neg h₆]
  by_cases h₇ : b = 0x09
  · rw [if_pos h₇, h₇]
    exact hletter _ _ (by decide) rfl
  rw [if_neg h₇]
  by_cases h₈ : b < 0x20
  · rw [if_pos h₈]
    have h₉ : (0x5C : UInt8) ≠ 0x22 := by decide
    have h₁₀ : ¬ (0x5C : UInt8) < 0x20 := by decide
    simp only [List.cons_append, List.nil_append, readChars, if_neg h₉, if_neg h₁₀, if_pos, readEscaped_control h₈,
      Option.bind_some]
  · rw [if_neg h₈]
    simp only [List.cons_append, List.nil_append, readChars, if_neg h₁, if_neg h₈, if_neg h₂]

theorem readChars_flatMap {n : ℕ} (rest : List UInt8) : ∀ {cs : List UInt8}, cs.length < n →
    readChars n (cs.flatMap escape ++ 0x22 :: rest) = some (cs, rest) := by
  intro cs
  induction cs generalizing n with
  | nil =>
    intro h
    obtain ⟨m, rfl⟩ := Nat.exists_eq_succ_of_ne_zero (Nat.ne_of_gt h)
    simp [readChars]
  | cons b cs ih =>
    intro h
    obtain ⟨m, rfl⟩ := Nat.exists_eq_succ_of_ne_zero (Nat.ne_of_gt (Nat.zero_lt_of_lt h))
    rw [List.flatMap_cons, List.append_assoc, readChars_escape, ih (Nat.lt_of_succ_lt_succ h)]
    rfl

theorem length_le_flatMap_escape (cs : List UInt8) : cs.length ≤ (cs.flatMap escape).length := by
  induction cs with
  | nil => exact Nat.zero_le _
  | cons b cs ih =>
    have hb : 1 ≤ (escape b).length := by
      unfold escape
      repeat' split
      all_goals simp
    rw [List.flatMap_cons, List.length_append, List.length_cons]
    omega

/-- **A string that is dumped is read back.** -/
theorem readString_dumpString (k : Utf8Text) (rest : List UInt8) :
    readString (k.val.flatMap escape ++ 0x22 :: rest) = some (k, rest) := by
  have hlen := length_le_flatMap_escape k.val
  unfold readString
  rw [readChars_flatMap rest (by rw [List.length_append]; omega)]
  exact dif_pos k.property

/-! ### Numbers come back -/

/-- What follows a number is none of its bytes. -/
def Follows (rest : List UInt8) : Prop := ∀ b ∈ rest.head?, isNumeric b = false

theorem span_numeric {s rest : List UInt8} (hs : ∀ b ∈ s, isNumeric b = true) (hr : Follows rest) :
    (s ++ rest).takeWhile isNumeric = s ∧ (s ++ rest).dropWhile isNumeric = rest := by
  have hrest : rest.takeWhile isNumeric = [] ∧ rest.dropWhile isNumeric = rest := by
    cases rest with
    | nil => exact ⟨rfl, rfl⟩
    | cons b rest =>
      have hb : isNumeric b = false := hr b rfl
      simp [hb]
  rw [List.takeWhile_append_of_pos hs, List.dropWhile_append_of_pos hs, hrest.1, hrest.2]
  exact ⟨List.append_nil s, rfl⟩

theorem isNat_dumpNat (n : ℕ) : isNat (dumpNat n) = true := by
  have hzero : (dumpNat n).head? = some 48 → (dumpNat n).length = 1 := by
    unfold dumpNat
    split
    · exact fun _ => rfl
    · rename_i hn
      intro h
      rw [List.head?_map, List.head?_reverse, List.getLast?_eq_some_getLast (Nat.digits_ne_nil_iff_ne_zero.mpr hn)] at h
      have hlt := Nat.digits_lt_base (b := 10) (by decide) (List.getLast_mem (Nat.digits_ne_nil_iff_ne_zero.mpr hn))
      have hd := (isDigit_digit _ hlt).2.2 (Option.some.inj h)
      exact absurd hd (Nat.getLast_digit_ne_zero 10 hn)
  unfold isNat
  exact decide_eq_true ⟨dumpNat_ne_nil n, List.all_eq_true.mpr (dumpNat_digits n), hzero⟩

theorem readNumber_dumpInt {n : ℤ} (h : -2 ^ 63 ≤ n ∧ n < 2 ^ 64) : readNumber fl (dumpInt n) = some (.int n) := by
  cases n with
  | ofNat n =>
    have hhead : (dumpNat n).head? ≠ some 0x2D := by
      intro hh
      have hdigit := dumpNat_digits n 0x2D (List.mem_of_mem_head? hh)
      revert hdigit
      decide
    show readNumber fl (dumpNat n) = _
    unfold readNumber
    simp only [if_neg hhead, takeWhile_dumpNat, isNat_dumpNat, readNat_dumpNat]
    rw [if_neg (by decide), if_pos trivial]
    exact if_pos h
  | negSucc n =>
    show readNumber fl (0x2D :: dumpNat (n + 1)) = _
    unfold readNumber
    simp only [List.head?_cons, List.tail_cons, if_pos, takeWhile_dumpNat, isNat_dumpNat, readNat_dumpNat]
    rw [if_neg (by decide)]
    exact if_pos h

/-! ### Values come back -/

/-- Numbers that are not integers are written as such and read back. -/
structure Floating.Lawful (fl : Floating D) : Prop where
  ne_nil : ∀ x, fl.write x ≠ []
  numeric : ∀ x, ∀ b ∈ fl.write x, isNumeric b = true
  readNumber_write : ∀ x, readNumber fl (fl.write x) = some (.float x)

/-- A byte with which no value starts: a blank, a closing bracket or the first
of the byte order mark. -/
def isClosing (b : UInt8) : Bool := isBlank b ∨ b = 0x5D ∨ b = 0x7D ∨ b = 0xEF

variable {fl}

theorem ne_of_numeric {b c : UInt8} (h : isNumeric b = true) (hc : isNumeric c = false) : b ≠ c := by
  rintro rfl
  rw [hc] at h
  cases h

theorem not_closing_of_numeric {b : UInt8} (h : isNumeric b = true) : isClosing b = false := by
  refine decide_eq_false ?_
  rintro (hb | hb | hb | hb)
  · rcases of_decide_eq_true hb with hb | hb | hb | hb <;> exact ne_of_numeric h (by decide) hb
  all_goals exact ne_of_numeric h (by decide) hb

/-- A value is dumped as some byte that no blank is, and more. -/
theorem dump_cons (hfl : fl.Lawful) (j : Json D) : ∃ b s, dump fl j = b :: s ∧ isClosing b = false := by
  have hnumber : ∀ s : List UInt8, s ≠ [] → (∀ b ∈ s, isNumeric b = true) →
      ∃ b t, s = b :: t ∧ isClosing b = false := by
    intro s hne hs
    obtain ⟨b, t, rfl⟩ := List.exists_cons_of_ne_nil hne
    exact ⟨b, t, rfl, not_closing_of_numeric (hs b List.mem_cons_self)⟩
  cases j with
  | null => exact ⟨_, _, by rw [dump], by decide⟩
  | bool b => cases b <;> exact ⟨_, _, by rw [dump], by decide⟩
  | int n =>
    rw [dump]
    exact hnumber _ (dumpInt_ne_nil n) (dumpInt_numeric n)
  | float x =>
    rw [dump]
    exact hnumber _ (hfl.ne_nil x) (hfl.numeric x)
  | str s => exact ⟨_, _, by rw [dump, dumpString], by decide⟩
  | arr js => cases js <;> exact ⟨_, _, by rw [dump], by decide⟩
  | obj ms => rcases ms with _ | ⟨⟨k, j⟩, ms⟩ <;> exact ⟨_, _, by rw [dump], by decide⟩

theorem skip_cons {b : UInt8} (h : isBlank b = false) (s : List UInt8) : skip (b :: s) = b :: s := by
  simp [skip, h]

/-- The first byte of a number tells that it is one. -/
theorem readValue_number {n : ℕ} {s rest : List UInt8} {j : Json D} (hne : s ≠ [])
    (hs : ∀ b ∈ s, isNumeric b = true) (hr : Follows rest) (hj : readNumber fl s = some j) :
    readValue fl (n + 1) (s ++ rest) = some (j, rest) := by
  obtain ⟨htake, hdrop⟩ := span_numeric hs hr
  obtain ⟨b, t, rfl⟩ := List.exists_cons_of_ne_nil hne
  have hb := hs b List.mem_cons_self
  rw [List.cons_append] at htake hdrop ⊢
  rw [readValue, if_neg (ne_of_numeric hb (by decide)), if_neg (ne_of_numeric hb (by decide)),
    if_neg (ne_of_numeric hb (by decide)), if_neg (ne_of_numeric hb (by decide)),
    if_neg (ne_of_numeric hb (by decide)), if_neg (ne_of_numeric hb (by decide)), htake, hdrop, hj]
  rfl

theorem length_dump_pos (hfl : fl.Lawful) (j : Json D) : 0 < (dump fl j).length := by
  obtain ⟨b, t, hd, -⟩ := dump_cons hfl j
  rw [hd]
  exact Nat.succ_pos _

/-- A text that is not empty and does not start with the mark. -/
theorem parse_of_head {s : List UInt8} (h : s.head? ≠ some 0xEF) : parse fl s =
    (readValue fl (s.length + 1) (skip s)).bind fun (j, s) =>
      if skip s = [] ∨ (skip s).head? = some 0 then some j else none := by
  have hmark : ¬ s.take 3 = [0xEF, 0xBB, 0xBF] := by
    intro ht
    cases s with
    | nil => cases ht
    | cons b s => exact h (congrArg List.head? ht)
  rw [parse, if_neg hmark]

/-! ### What is dumped is one line -/

theorem ge_of_mem_escape {b c : UInt8} (h : c ∈ escape b) : 0x20 ≤ c := by
  have hhex : ∀ n < 16, 0x20 ≤ hexDigit n := by decide
  unfold escape at h
  repeat' split at h
  all_goals simp only [List.mem_cons, List.not_mem_nil, or_false] at h
  case isFalse.isFalse.isFalse.isFalse.isFalse.isFalse.isFalse.isTrue hb =>
    have hlt : b.toNat < 32 := hb
    rcases h with rfl | rfl | rfl | rfl | rfl | rfl
    · decide
    · decide
    · decide
    · decide
    · exact hhex _ (by omega)
    · exact hhex _ (by omega)
  case isFalse.isFalse.isFalse.isFalse.isFalse.isFalse.isFalse.isFalse hb =>
    rw [h]
    exact not_lt.mp hb
  all_goals rcases h with rfl | rfl <;> decide

theorem ge_of_mem_dumpString {s : List UInt8} {c : UInt8} (h : c ∈ dumpString s) : 0x20 ≤ c := by
  unfold dumpString at h
  rcases List.mem_cons.mp h with rfl | h
  · decide
  · rcases List.mem_append.mp h with h | h
    · obtain ⟨b, -, hb⟩ := List.mem_flatMap.mp h
      exact ge_of_mem_escape hb
    · rw [List.mem_singleton.mp h]
      decide

theorem ge_of_numeric {b : UInt8} (h : isNumeric b = true) : 0x20 ≤ b := by
  have hb : isDigit b = true ∨ b = 0x2B ∨ b = 0x2D ∨ b = 0x2E ∨ b = 0x65 ∨ b = 0x45 := of_decide_eq_true h
  rcases hb with hd | rfl | rfl | rfl | rfl | rfl
  · have hd : 48 ≤ b ∧ b ≤ 57 := of_decide_eq_true hd
    exact le_trans (by decide) hd.1
  all_goals decide

theorem ge_of_all {s : List UInt8} (hs : s.all (0x20 ≤ ·) = true) {c : UInt8} (h : c ∈ s) : 0x20 ≤ c :=
  of_decide_eq_true (List.all_eq_true.mp hs c h)

mutual

/-- No control character stands in a text that is dumped. -/
theorem ge_of_mem_dump (hfl : fl.Lawful) : ∀ (j : Json D) {c : UInt8}, c ∈ dump fl j → 0x20 ≤ c
  | .null, c, h => by
    rw [dump] at h
    exact ge_of_all (by decide) h
  | .bool true, c, h => by
    rw [dump] at h
    exact ge_of_all (by decide) h
  | .bool false, c, h => by
    rw [dump] at h
    exact ge_of_all (by decide) h
  | .int n, c, h => by
    rw [dump] at h
    exact ge_of_numeric (dumpInt_numeric n c h)
  | .float x, c, h => by
    rw [dump] at h
    exact ge_of_numeric (hfl.numeric x c h)
  | .str s, c, h => by
    rw [dump] at h
    exact ge_of_mem_dumpString h
  | .arr [], c, h => by
    rw [dump] at h
    exact ge_of_all (by decide) h
  | .arr (j :: js), c, h => by
    rw [dump] at h
    rcases List.mem_cons.mp h with rfl | h
    · decide
    · rcases List.mem_append.mp h with h | h
      · exact ge_of_mem_dump hfl j h
      · exact ge_of_mem_dumpElements hfl js h
  | .obj [], c, h => by
    rw [dump] at h
    exact ge_of_all (by decide) h
  | .obj ((k, j) :: ms), c, h => by
    rw [dump] at h
    rcases List.mem_cons.mp h with rfl | h
    · decide
    · rcases List.mem_append.mp h with h | h
      · exact ge_of_mem_dumpString h
      · rcases List.mem_cons.mp h with rfl | h
        · decide
        · rcases List.mem_append.mp h with h | h
          · exact ge_of_mem_dump hfl j h
          · exact ge_of_mem_dumpMembers hfl ms h

theorem ge_of_mem_dumpElements (hfl : fl.Lawful) : ∀ (js : List (Json D)) {c : UInt8}, c ∈ dumpElements fl js → 0x20 ≤ c
  | [], c, h => by
    rw [dumpElements] at h
    exact ge_of_all (by decide) h
  | j :: js, c, h => by
    rw [dumpElements] at h
    rcases List.mem_cons.mp h with rfl | h
    · decide
    · rcases List.mem_append.mp h with h | h
      · exact ge_of_mem_dump hfl j h
      · exact ge_of_mem_dumpElements hfl js h

theorem ge_of_mem_dumpMembers (hfl : fl.Lawful) : ∀ (ms : List (Utf8Text × Json D)) {c : UInt8},
    c ∈ dumpMembers fl ms → 0x20 ≤ c
  | [], c, h => by
    rw [dumpMembers] at h
    exact ge_of_all (by decide) h
  | (k, j) :: ms, c, h => by
    rw [dumpMembers] at h
    rcases List.mem_cons.mp h with rfl | h
    · decide
    · rcases List.mem_append.mp h with h | h
      · exact ge_of_mem_dumpString h
      · rcases List.mem_cons.mp h with rfl | h
        · decide
        · rcases List.mem_append.mp h with h | h
          · exact ge_of_mem_dump hfl j h
          · exact ge_of_mem_dumpMembers hfl ms h

end

/-! ### A text that is cut short -/

theorem skip_append {s : List UInt8} (t : List UInt8) (h : skip s ≠ []) : skip (s ++ t) = skip s ++ t := by
  unfold skip at h ⊢
  rw [List.dropWhile_append, if_neg]
  simpa [List.isEmpty_iff] using h

theorem hex4_append {s r : List UInt8} {n : ℕ} (h : hex4 s = some (n, r)) (t : List UInt8) :
    hex4 (s ++ t) = some (n, r ++ t) := by
  match s, h with
  | a :: b :: c :: d :: s, h =>
    obtain ⟨n', hn, he⟩ := Option.map_eq_some_iff.mp h
    cases he
    simp only [List.cons_append, hex4, hn, Option.map_some]

theorem take_append_of_eq {s l : List UInt8} {k : ℕ} (h : s.take k = l) (hl : l.length = k) (t : List UInt8) :
    (s ++ t).take k = l ∧ (s ++ t).drop k = s.drop k ++ t := by
  have hk : k ≤ s.length := by
    rw [← h, List.length_take] at hl
    omega
  rw [List.take_append_of_le_length hk, List.drop_append_of_le_length hk]
  exact ⟨h, rfl⟩

theorem readEscaped_append {s c r : List UInt8} (h : readEscaped s = some (c, r)) (t : List UInt8) :
    readEscaped (s ++ t) = some (c, r ++ t) := by
  obtain ⟨⟨hi, s₁⟩, hhi, h⟩ := Option.bind_eq_some_iff.mp h
  rw [readEscaped, hex4_append hhi t, Option.bind_some]
  dsimp only at h ⊢
  split at h
  · rename_i hc
    cases h
    exact if_pos hc
  · rename_i hc
    rw [if_neg hc]
    split at h
    · cases h
    · rename_i hc
      rw [if_neg hc]
      split at h
      · rename_i htake
        obtain ⟨htake, hdrop⟩ := take_append_of_eq htake rfl t
        obtain ⟨⟨lo, s₂⟩, hlo, h⟩ := Option.bind_eq_some_iff.mp h
        rw [if_pos htake, hdrop, hex4_append hlo t, Option.bind_some]
        dsimp only at h ⊢
        obtain ⟨hc, h⟩ := Option.ite_none_right_eq_some.mp h
        obtain ⟨hcode, hrest⟩ := Prod.mk.inj (Option.some.inj h)
        rw [if_pos hc, hcode, hrest]
      · cases h

theorem readChars_append : ∀ {n m : ℕ}, n ≤ m → ∀ {s c r : List UInt8}, readChars n s = some (c, r) →
    ∀ t : List UInt8, readChars m (s ++ t) = some (c, r ++ t)
  | 0, _, _, _, _, _, h, _ => by cases h
  | n + 1, 0, hnm, _, _, _, _, _ => absurd hnm (Nat.not_succ_le_zero n)
  | n + 1, m + 1, _, [], _, _, h, _ => by cases h
  | n + 1, m + 1, hnm, b :: s, c, r, h, t => by
    have ih := @readChars_append n m (Nat.le_of_succ_le_succ hnm)
    rw [List.cons_append]
    unfold readChars at h ⊢
    split at h
    · rename_i hb
      cases h
      exact if_pos hb
    · rename_i hb
      rw [if_neg hb]
      split at h
      · cases h
      · rename_i hb
        rw [if_neg hb]
        split at h
        · rename_i hb
          rw [if_pos hb]
          cases s with
          | nil => cases h
          | cons e s =>
            dsimp only [List.cons_append] at h ⊢
            split at h
            · rename_i he
              obtain ⟨⟨c₁, s₁⟩, hc₁, h⟩ := Option.bind_eq_some_iff.mp h
              obtain ⟨⟨cs, s₂⟩, hcs, h⟩ := Option.map_eq_some_iff.mp h
              cases h
              rw [if_pos he, readEscaped_append hc₁ t, Option.bind_some, ih hcs t]
              rfl
            · rename_i he
              obtain ⟨c₁, hc₁, h⟩ := Option.bind_eq_some_iff.mp h
              obtain ⟨⟨cs, s₂⟩, hcs, h⟩ := Option.map_eq_some_iff.mp h
              cases h
              rw [if_neg he, hc₁, Option.bind_some, ih hcs t]
              rfl
        · rename_i hb
          obtain ⟨⟨cs, s₂⟩, hcs, h⟩ := Option.map_eq_some_iff.mp h
          cases h
          rw [if_neg hb, ih hcs t]
          rfl

theorem readString_append {s r : List UInt8} {k : Utf8Text} (h : readString s = some (k, r)) (t : List UInt8) :
    readString (s ++ t) = some (k, r ++ t) := by
  obtain ⟨⟨cs, s₁⟩, hcs, h⟩ := Option.bind_eq_some_iff.mp h
  rw [readString, readChars_append (by rw [List.length_append]; omega) hcs t, Option.bind_some]
  dsimp only at h ⊢
  split at h
  · rename_i hv
    cases h
    exact dif_pos hv
  · cases h

/-- More text after what was read changes nothing, if what was read cannot be
continued: a value that is followed by something or is an object, elements,
members. -/
structure Extends (fl : Floating D) (n : ℕ) : Prop where
  value : ∀ (m : ℕ), n ≤ m → ∀ (s : List UInt8) (j : Json D) (r t : List UInt8),
    readValue fl n s = some (j, r) → r ≠ [] ∨ s.head? = some 0x7B → readValue fl m (s ++ t) = some (j, r ++ t)
  elements : ∀ (m : ℕ), n ≤ m → ∀ (s : List UInt8) (js : List (Json D)) (r t : List UInt8),
    readElements fl n s = some (js, r) → readElements fl m (s ++ t) = some (js, r ++ t)
  members : ∀ (m : ℕ), n ≤ m → ∀ (s : List UInt8) (ms : List (Utf8Text × Json D)) (r t : List UInt8),
    readMembers fl n s = some (ms, r) → readMembers fl m (s ++ t) = some (ms, r ++ t)

theorem extends_zero : Extends fl 0 where
  value := fun _ _ _ _ _ _ h => by rw [readValue] at h; cases h
  elements := fun _ _ _ _ _ _ h => by rw [readElements] at h; cases h
  members := fun _ _ _ _ _ _ h => by rw [readMembers] at h; cases h

/-- What comes first after blanks is not changed. -/
theorem head?_skip_append {s : List UInt8} {b : UInt8} (h : (skip s).head? = some b) (t : List UInt8) :
    skip (s ++ t) = skip s ++ t ∧ (skip s ++ t).head? = some b ∧ (skip s ++ t).tail = (skip s).tail ++ t := by
  have hne : skip s ≠ [] := by
    intro he
    rw [he] at h
    cases h
  refine ⟨skip_append t hne, ?_, ?_⟩
  · rw [List.head?_append, h]
    rfl
  · exact List.tail_append_of_ne_nil hne

theorem head?_skip_append_ne {s : List UInt8} {b : UInt8} (hs : skip s ≠ []) (h : (skip s).head? ≠ some b)
    (t : List UInt8) : skip (s ++ t) = skip s ++ t ∧ (skip s ++ t).head? ≠ some b := by
  refine ⟨skip_append t hs, ?_⟩
  rwa [List.head?_append_of_ne_nil _ hs]

/-- A number that is followed by something is not continued. -/
theorem numeric_append {s : List UInt8} (t : List UInt8) (h : s.dropWhile isNumeric ≠ []) :
    (s ++ t).takeWhile isNumeric = s.takeWhile isNumeric ∧
      (s ++ t).dropWhile isNumeric = s.dropWhile isNumeric ++ t := by
  constructor
  · rw [List.takeWhile_append, if_neg]
    intro hlen
    have hsplit := congrArg List.length (List.takeWhile_append_dropWhile (p := isNumeric) (l := s))
    rw [List.length_append, hlen] at hsplit
    exact h (List.length_eq_zero_iff.mp (by omega))
  · rw [List.dropWhile_append, if_neg]
    simpa [List.isEmpty_iff] using h

theorem ne_nil_of_skip {s : List UInt8} {b : UInt8} (h : (skip s).head? = some b) : s ≠ [] := by
  rintro rfl
  cases h

theorem readValue_nil : ∀ n, readValue fl n [] = none
  | 0 => by rw [readValue]
  | n + 1 => by rw [readValue]

theorem readElements_nil : ∀ n, readElements fl n [] = none
  | 0 => by rw [readElements]
  | n + 1 => by rw [readElements, readValue_nil, Option.bind_none]

theorem readMembers_nil : ∀ n, readMembers fl n [] = none
  | 0 => by rw [readMembers]
  | n + 1 => by
    rw [readMembers]
    rfl

/-- Something is read only from a text that is not empty. -/
theorem ne_nil_of_read {α : Type} {f : List UInt8 → Option α} (hf : f [] = none) {s : List UInt8} {a : α}
    (h : f s = some a) : s ≠ [] := by
  rintro rfl
  rw [hf] at h
  cases h

theorem Extends.elements_succ {n : ℕ} (ih : Extends fl n) (m : ℕ) (hm : n + 1 ≤ m) (s : List UInt8)
    (js : List (Json D)) (r t : List UInt8) (h : readElements fl (n + 1) s = some (js, r)) :
    readElements fl m (s ++ t) = some (js, r ++ t) := by
  obtain ⟨m, rfl⟩ := Nat.exists_eq_succ_of_ne_zero (Nat.ne_of_gt (Nat.lt_of_lt_of_le n.succ_pos hm))
  have hm := Nat.le_of_succ_le_succ hm
  rw [readElements] at h
  obtain ⟨⟨j, s₁⟩, hj, h⟩ := Option.bind_eq_some_iff.mp h
  dsimp only at h
  by_cases hclose : (skip s₁).head? = some 0x5D
  · rw [if_pos hclose] at h
    cases h
    obtain ⟨hskip, hhead, htail⟩ := head?_skip_append hclose t
    rw [readElements, ih.value m hm s j s₁ t hj (.inl (ne_nil_of_skip hclose)), Option.bind_some]
    dsimp only
    rw [hskip, if_pos hhead, htail]
  · rw [if_neg hclose] at h
    obtain ⟨hcomma, h⟩ := Option.ite_none_right_eq_some.mp h
    obtain ⟨⟨js', s₂⟩, hjs, h⟩ := Option.map_eq_some_iff.mp h
    cases h
    obtain ⟨hskip, hhead, htail⟩ := head?_skip_append hcomma t
    have hne : skip (skip s₁).tail ≠ [] := ne_nil_of_read (readElements_nil n) hjs
    rw [readElements, ih.value m hm s j s₁ t hj (.inl (ne_nil_of_skip hcomma)), Option.bind_some]
    dsimp only
    rw [hskip, hhead, if_neg (by decide), if_pos rfl, htail, skip_append t hne,
      ih.elements m hm _ js' s₂ t hjs]
    rfl

theorem Extends.members_succ {n : ℕ} (ih : Extends fl n) (m : ℕ) (hm : n + 1 ≤ m) (s : List UInt8)
    (ms : List (Utf8Text × Json D)) (r t : List UInt8) (h : readMembers fl (n + 1) s = some (ms, r)) :
    readMembers fl m (s ++ t) = some (ms, r ++ t) := by
  obtain ⟨m, rfl⟩ := Nat.exists_eq_succ_of_ne_zero (Nat.ne_of_gt (Nat.lt_of_lt_of_le n.succ_pos hm))
  have hm := Nat.le_of_succ_le_succ hm
  have hs : s ≠ [] := ne_nil_of_read (readMembers_nil (n + 1)) h
  rw [readMembers] at h
  -- the key, the colon and the value
  obtain ⟨hquote, h⟩ := Option.ite_none_right_eq_some.mp h
  obtain ⟨⟨k, s₁⟩, hk, h⟩ := Option.bind_eq_some_iff.mp h
  obtain ⟨hcolon, h⟩ := Option.ite_none_right_eq_some.mp h
  obtain ⟨⟨j, s₂⟩, hj, h⟩ := Option.bind_eq_some_iff.mp h
  dsimp only at h hcolon
  have hquote' : (s ++ t).head? = some 0x22 := by
    rw [List.head?_append, hquote]
    rfl
  obtain ⟨hskip₁, hhead₁, htail₁⟩ := head?_skip_append hcolon t
  have hne₁ : skip (skip s₁).tail ≠ [] := ne_nil_of_read (readValue_nil n) hj
  have hvalue : s₂ ≠ [] → readMembers fl (m + 1) (s ++ t) =
      if (skip (s₂ ++ t)).head? = some 0x7D then some ([(k, j)], (skip (s₂ ++ t)).tail)
      else if (skip (s₂ ++ t)).head? = some 0x2C then
        (readMembers fl m (skip (skip (s₂ ++ t)).tail)).map fun (ms, s) => ((k, j) :: ms, s)
      else none := by
    intro hne₂
    rw [readMembers, if_pos hquote', List.tail_append_of_ne_nil hs, readString_append hk t, Option.bind_some]
    dsimp only
    rw [hskip₁, if_pos hhead₁, htail₁, skip_append t hne₁, ih.value m hm _ j s₂ t hj (.inl hne₂), Option.bind_some]
  by_cases hclose : (skip s₂).head? = some 0x7D
  · rw [if_pos hclose] at h
    cases h
    obtain ⟨hskip, hhead, htail⟩ := head?_skip_append hclose t
    rw [hvalue (ne_nil_of_skip hclose), hskip, if_pos hhead, htail]
  · rw [if_neg hclose] at h
    obtain ⟨hcomma, h⟩ := Option.ite_none_right_eq_some.mp h
    obtain ⟨⟨ms', s₃⟩, hms, h⟩ := Option.map_eq_some_iff.mp h
    cases h
    obtain ⟨hskip, hhead, htail⟩ := head?_skip_append hcomma t
    have hne : skip (skip s₂).tail ≠ [] := ne_nil_of_read (readMembers_nil n) hms
    rw [hvalue (ne_nil_of_skip hcomma), hskip, hhead, if_neg (by decide), if_pos rfl, htail, skip_append t hne,
      ih.members m hm _ ms' s₃ t hms]
    rfl

/-- A list between brackets, of which more text follows. -/
theorem bracketed_append {α : Type} {read read' : List UInt8 → Option (α × List UInt8)} {close : UInt8}
    {empty j : Json D} {s r t : List UInt8} (wrap : α → Json D) (hnil : read [] = none)
    (hread : ∀ {u a r}, read u = some (a, r) → read' (u ++ t) = some (a, r ++ t))
    (h : (if (skip s).head? = some close then some (empty, (skip s).tail)
      else (read (skip s)).map fun (a, s) => (wrap a, s)) = some (j, r)) :
    (if (skip (s ++ t)).head? = some close then some (empty, (skip (s ++ t)).tail)
      else (read' (skip (s ++ t))).map fun (a, s) => (wrap a, s)) = some (j, r ++ t) := by
  by_cases hclose : (skip s).head? = some close
  · rw [if_pos hclose] at h
    cases h
    obtain ⟨hskip, hhead, htail⟩ := head?_skip_append hclose t
    rw [hskip, if_pos hhead, htail]
  · rw [if_neg hclose] at h
    obtain ⟨⟨a, s₁⟩, ha, h⟩ := Option.map_eq_some_iff.mp h
    cases h
    obtain ⟨hskip, hhead⟩ := head?_skip_append_ne (ne_nil_of_read hnil ha) hclose t
    rw [hskip, if_neg hhead, hread ha]
    rfl

/-- A literal, of which the first character is read, and more text. -/
theorem literal_append {i j : Json D} {k : ℕ} {l s r : List UInt8} (t : List UInt8) (hl : l.length = k)
    (h : (if s.take k = l then some (i, s.drop k) else none) = some (j, r)) :
    (if (s ++ t).take k = l then some (i, (s ++ t).drop k) else none) = some (j, r ++ t) := by
  obtain ⟨htake, h⟩ := Option.ite_none_right_eq_some.mp h
  obtain ⟨htake, hdrop⟩ := take_append_of_eq htake hl t
  cases h
  rw [if_pos htake, hdrop]

theorem Extends.value_succ {n : ℕ} (ih : Extends fl n) (m : ℕ) (hm : n + 1 ≤ m) (s : List UInt8) (j : Json D)
    (r t : List UInt8) (h : readValue fl (n + 1) s = some (j, r)) (hr : r ≠ [] ∨ s.head? = some 0x7B) :
    readValue fl m (s ++ t) = some (j, r ++ t) := by
  obtain ⟨m, rfl⟩ := Nat.exists_eq_succ_of_ne_zero (Nat.ne_of_gt (Nat.lt_of_lt_of_le n.succ_pos hm))
  have hm := Nat.le_of_succ_le_succ hm
  cases s with
  | nil =>
    rw [readValue_nil] at h
    cases h
  | cons b s =>
    rw [List.cons_append]
    rw [readValue] at h ⊢
    split at h
    · rename_i hb
      obtain ⟨⟨k, s₁⟩, hk, h⟩ := Option.map_eq_some_iff.mp h
      cases h
      rw [if_pos hb, readString_append hk t]
      rfl
    rename_i h₁
    rw [if_neg h₁]
    split at h
    · rename_i hb
      rw [if_pos hb]
      exact bracketed_append .arr (readElements_nil n) (fun hjs => ih.elements m hm _ _ _ t hjs) h
    rename_i h₂
    rw [if_neg h₂]
    split at h
    · rename_i hb
      rw [if_pos hb]
      exact bracketed_append (fun ms => .obj (ofPairs ms)) (readMembers_nil n)
        (fun hms => ih.members m hm _ _ _ t hms) h
    rename_i h₃
    rw [if_neg h₃]
    split at h
    · rename_i hb
      rw [if_pos hb]
      exact literal_append t rfl h
    rename_i h₄
    rw [if_neg h₄]
    split at h
    · rename_i hb
      rw [if_pos hb]
      exact literal_append t rfl h
    rename_i h₅
    rw [if_neg h₅]
    split at h
    · rename_i hb
      rw [if_pos hb]
      exact literal_append t rfl h
    rename_i h₆
    rw [if_neg h₆]
    obtain ⟨i, hi, h⟩ := Option.map_eq_some_iff.mp h
    obtain ⟨rfl, rfl⟩ := Prod.mk.inj h
    have hrest : (b :: s).dropWhile isNumeric ≠ [] := by
      rcases hr with hr | hr
      · exact hr
      · exact absurd (Option.some.inj hr) h₃
    obtain ⟨htake, hdrop⟩ := numeric_append t hrest
    rw [← List.cons_append, htake, hdrop, hi]
    rfl

theorem extends_all : ∀ n, Extends fl n
  | 0 => extends_zero
  | n + 1 =>
    have ih := extends_all n
    ⟨ih.value_succ, ih.elements_succ, ih.members_succ⟩

/-- A text of an object that is cut short is not read. -/
theorem parse_take_of_readValue {s rest : List UInt8} {j : Json D} (hs : s = 0x7B :: rest)
    (hwhole : readValue fl (s.length + 1) s = some (j, [])) {k : ℕ} (hk : k < s.length) :
    parse fl (s.take k) = none := by
  cases k with
  | zero => rfl
  | succ k =>
    have hcut : s.take (k + 1) = 0x7B :: rest.take k := by rw [hs, List.take_succ_cons]
    have hskip : skip (0x7B :: rest.take k) = 0x7B :: rest.take k := skip_cons (by decide) _
    have hhead : (0x7B :: rest.take k).head? ≠ some 0xEF := by
      show some 0x7B ≠ some 0xEF
      decide
    rw [hcut, parse_of_head hhead, hskip]
    -- if it were read, the whole text would leave the part that was cut off
    cases hread : readValue fl ((0x7B :: rest.take k).length + 1) (0x7B :: rest.take k) with
    | none => rfl
    | some p =>
      obtain ⟨j', r⟩ := p
      rw [hs, List.length_cons] at hk
      have htake : (0x7B :: rest.take k) ++ rest.drop k = s := by
        rw [hs, List.cons_append, List.take_append_drop]
      have hlen : (0x7B :: rest.take k).length + 1 ≤ s.length + 1 := by
        rw [hs, List.length_cons, List.length_cons, List.length_take]
        omega
      have hmore := (extends_all _).value _ hlen _ j' r (rest.drop k) hread (.inr rfl)
      rw [htake, hwhole] at hmore
      have hnil : r ++ rest.drop k = [] := (Prod.mk.inj (Option.some.inj hmore)).2.symm
      have hdrop : rest.drop k = [] := (List.append_eq_nil_iff.mp hnil).2
      rw [List.drop_eq_nil_iff] at hdrop
      omega

/-! ### Fewer members are shorter -/

/-- The bytes of a member and of what separates it. -/
def memberSize (fl : Floating D) (m : Utf8Text × Json D) : ℕ := (dumpString m.1.val).length + (dump fl m.2).length + 2

theorem length_dumpMembers (fl : Floating D) : ∀ ms : List (Utf8Text × Json D),
    (dumpMembers fl ms).length = 1 + (ms.map (memberSize fl)).sum
  | [] => by rw [dumpMembers]; rfl
  | (k, j) :: ms => by
    have hsize : memberSize fl (k, j) = (dumpString k.val).length + (dump fl j).length + 2 := rfl
    rw [dumpMembers, List.length_cons, List.length_append, List.length_cons, List.length_append,
      length_dumpMembers fl ms, List.map_cons, List.sum_cons]
    omega

theorem length_dump_cons (fl : Floating D) (m : Utf8Text × Json D) (ms : List (Utf8Text × Json D)) :
    (dump fl (.obj (m :: ms))).length = 1 + ((m :: ms).map (memberSize fl)).sum := by
  obtain ⟨k, j⟩ := m
  have hsize : memberSize fl (k, j) = (dumpString k.val).length + (dump fl j).length + 2 := rfl
  rw [dump, List.length_cons, List.length_append, List.length_cons, List.length_append, length_dumpMembers,
    List.map_cons, List.sum_cons]
  omega

/-- An object of some of the members. -/
theorem length_dump_sublist (fl : Floating D) {ms ms' : List (Utf8Text × Json D)} (h : ms.Sublist ms') :
    (dump fl (.obj ms)).length ≤ (dump fl (.obj ms')).length := by
  have hsum : (ms.map (memberSize fl)).sum ≤ (ms'.map (memberSize fl)).sum :=
    (h.map _).sum_le_sum fun _ _ => Nat.zero_le _
  cases ms' with
  | nil => rw [List.sublist_nil.mp h]
  | cons m' ms' =>
    rw [length_dump_cons]
    cases ms with
    | nil =>
      have hm' : 2 ≤ memberSize fl m' := Nat.le_add_left _ _
      rw [List.map_cons, List.sum_cons, dump]
      show 2 ≤ _
      omega
    | cons m ms =>
      rw [length_dump_cons]
      omega

/-! ### What is read is well formed -/

theorem wellFormed_readNumber {s : List UInt8} {j : Json D} (h : readNumber fl s = some j) : WellFormed j := by
  have hfloat : (fl.read s).map Json.float = some j → WellFormed j := by
    intro h
    obtain ⟨x, -, rfl⟩ := Option.map_eq_some_iff.mp h
    exact .float x
  unfold readNumber at h
  dsimp only at h
  generalize (if s.head? = some 0x2D then s.tail else s) = body at h
  obtain ⟨-, h⟩ := Option.ite_none_left_eq_some.mp h
  split at h
  · generalize (if s.head? = some 0x2D then -(readNat (body.takeWhile isDigit) : ℤ)
      else readNat (body.takeWhile isDigit)) = n at h
    split at h
    · rename_i hrange
      cases h
      exact .int hrange
    · exact hfloat h
  · exact hfloat (Option.ite_none_right_eq_some.mp h).2

/-- What is read with fuel `n` is well formed. -/
structure ReadsWell (fl : Floating D) (n : ℕ) : Prop where
  value : ∀ (s : List UInt8) (j : Json D) (r : List UInt8), readValue fl n s = some (j, r) → WellFormed j
  elements : ∀ (s : List UInt8) (js : List (Json D)) (r : List UInt8), readElements fl n s = some (js, r) →
    ∀ j ∈ js, WellFormed j
  members : ∀ (s : List UInt8) (ms : List (Utf8Text × Json D)) (r : List UInt8), readMembers fl n s = some (ms, r) →
    ∀ m ∈ ms, WellFormed m.2

theorem readsWell_zero : ReadsWell fl 0 where
  value := fun _ _ _ h => by rw [readValue] at h; cases h
  elements := fun _ _ _ h => by rw [readElements] at h; cases h
  members := fun _ _ _ h => by rw [readMembers] at h; cases h

theorem ReadsWell.value_succ {n : ℕ} (ih : ReadsWell fl n) (s : List UInt8) (j : Json D) (r : List UInt8)
    (h : readValue fl (n + 1) s = some (j, r)) : WellFormed j := by
  have hliteral : ∀ {p : Prop} [Decidable p] {i : Json D} {t : List UInt8}, WellFormed i →
      (if p then some (i, t) else none) = some (j, r) → WellFormed j := by
    intro p _ i t hi h
    obtain ⟨-, h⟩ := Option.ite_none_right_eq_some.mp h
    cases h
    exact hi
  cases s with
  | nil =>
    rw [readValue_nil] at h
    cases h
  | cons b s =>
    rw [readValue] at h
    split at h
    · obtain ⟨⟨k, t⟩, -, h⟩ := Option.map_eq_some_iff.mp h
      cases h
      exact .str k
    · split at h
      · split at h
        · cases h
          exact .arr fun _ hi => absurd hi List.not_mem_nil
        · obtain ⟨⟨js, t⟩, hjs, h⟩ := Option.map_eq_some_iff.mp h
          cases h
          exact .arr (ih.elements _ js _ hjs)
      · split at h
        · split at h
          · cases h
            exact .obj (fun _ hi => absurd hi List.not_mem_nil) List.Pairwise.nil
          · obtain ⟨⟨ms, t⟩, hms, h⟩ := Option.map_eq_some_iff.mp h
            cases h
            exact wellFormed_ofPairs (ih.members _ ms _ hms)
        · split at h
          · exact hliteral .null h
          · split at h
            · exact hliteral (.bool true) h
            · split at h
              · exact hliteral (.bool false) h
              · obtain ⟨i, hi, h⟩ := Option.map_eq_some_iff.mp h
                cases h
                exact wellFormed_readNumber hi

theorem ReadsWell.elements_succ {n : ℕ} (ih : ReadsWell fl n) (s : List UInt8) (js : List (Json D)) (r : List UInt8)
    (h : readElements fl (n + 1) s = some (js, r)) : ∀ j ∈ js, WellFormed j := by
  rw [readElements] at h
  obtain ⟨⟨j, s₁⟩, hj, h⟩ := Option.bind_eq_some_iff.mp h
  dsimp only at h
  have hwell := ih.value s j s₁ hj
  split at h
  · cases h
    exact List.forall_mem_singleton.mpr hwell
  · obtain ⟨-, h⟩ := Option.ite_none_right_eq_some.mp h
    obtain ⟨⟨js', s₂⟩, hjs, h⟩ := Option.map_eq_some_iff.mp h
    cases h
    exact List.forall_mem_cons.mpr ⟨hwell, ih.elements _ js' _ hjs⟩

theorem ReadsWell.members_succ {n : ℕ} (ih : ReadsWell fl n) (s : List UInt8) (ms : List (Utf8Text × Json D))
    (r : List UInt8) (h : readMembers fl (n + 1) s = some (ms, r)) : ∀ m ∈ ms, WellFormed m.2 := by
  rw [readMembers] at h
  obtain ⟨-, h⟩ := Option.ite_none_right_eq_some.mp h
  obtain ⟨⟨k, s₁⟩, -, h⟩ := Option.bind_eq_some_iff.mp h
  obtain ⟨-, h⟩ := Option.ite_none_right_eq_some.mp h
  obtain ⟨⟨j, s₂⟩, hj, h⟩ := Option.bind_eq_some_iff.mp h
  dsimp only at h
  have hwell := ih.value _ j s₂ hj
  split at h
  · cases h
    exact List.forall_mem_singleton.mpr hwell
  · obtain ⟨-, h⟩ := Option.ite_none_right_eq_some.mp h
    obtain ⟨⟨ms', s₃⟩, hms, h⟩ := Option.map_eq_some_iff.mp h
    cases h
    exact List.forall_mem_cons.mpr ⟨hwell, ih.members _ ms' _ hms⟩

theorem readsWell : ∀ n, ReadsWell fl n
  | 0 => readsWell_zero
  | n + 1 =>
    have ih := readsWell n
    ⟨ih.value_succ, ih.elements_succ, ih.members_succ⟩

/-- **What is read can be dumped and read again.** -/
theorem wellFormed_of_parse {s : List UInt8} {j : Json D} (h : parse fl s = some j) : WellFormed j := by
  obtain ⟨⟨i, t⟩, hi, h⟩ := Option.bind_eq_some_iff.mp h
  obtain ⟨-, h⟩ := Option.ite_none_right_eq_some.mp h
  cases h
  exact (readsWell _).value _ _ t hi

end Json
end Amind
