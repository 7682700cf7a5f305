/-
# JSON values

Values, and what a library does that reads and writes them: a value is dumped
in one line, or over indented lines, with the members of an object in the order
of their keys; of two members with one key the last counts. Strings are UTF-8.

The library is a parameter. `Library.Lawful` is what is relied on: what is
dumped is read back, a text of an object that is cut short is not read, and no
control character stands in a line that is dumped. Numbers in decimal digits are
here as well.
-/
import Mathlib.Data.List.TakeWhile
import Mathlib.Data.Nat.Digits.Lemmas
import Amind.Lib.Keyed

namespace Amind

/-! ### UTF-8 -/

namespace Utf8

/-- A byte that continues a character. -/
def cont (b : UInt8) : Bool := 0x80 ≤ b && b ≤ 0xBF

/-- The bytes are well-formed UTF-8. -/
def valid : List UInt8 → Bool
  | [] => true
  | a :: bs =>
    if a < 0x80 then valid bs
    else
      match bs with
      | [] => false
      | b :: cs =>
        if a < 0xC2 then false
        else if a < 0xE0 then cont b && valid cs
        else
          match cs with
          | [] => false
          | c :: ds =>
            if a < 0xF0 then
              cont b && cont c && (a != 0xE0 || 0xA0 ≤ b) && (a != 0xED || b < 0xA0) && valid ds
            else
              match ds with
              | [] => false
              | d :: es =>
                a < 0xF5 && cont b && cont c && cont d && (a != 0xF0 || 0x90 ≤ b) && (a != 0xF4 || b < 0x90) &&
                  valid es

theorem valid_nil : valid [] = true := rfl

/-- The bytes of a code point. -/
def encode (c : ℕ) : List UInt8 :=
  if c < 0x80 then [UInt8.ofNat c]
  else if c < 0x800 then [UInt8.ofNat (0xC0 + c / 0x40), UInt8.ofNat (0x80 + c % 0x40)]
  else if c < 0x10000 then
    [UInt8.ofNat (0xE0 + c / 0x1000), UInt8.ofNat (0x80 + c / 0x40 % 0x40), UInt8.ofNat (0x80 + c % 0x40)]
  else
    [UInt8.ofNat (0xF0 + c / 0x40000), UInt8.ofNat (0x80 + c / 0x1000 % 0x40), UInt8.ofNat (0x80 + c / 0x40 % 0x40),
      UInt8.ofNat (0x80 + c % 0x40)]

theorem valid_of_ascii : ∀ {s : List UInt8}, (∀ b ∈ s, b < 0x80) → valid s = true
  | [], _ => rfl
  | b :: s, h => by
    unfold valid
    rw [if_pos (h b List.mem_cons_self)]
    exact valid_of_ascii fun c hc => h c (List.mem_cons_of_mem _ hc)

/-- The bytes of a string. -/
def bytes (s : String) : List UInt8 := s.toByteArray.data.toList

theorem bytes_injective : Function.Injective bytes := fun _ _ h =>
  String.toByteArray_inj.mp (ByteArray.ext (Array.toList_inj.mp h))

end Utf8

/-- A string of well-formed UTF-8. -/
abbrev Utf8Text := { s : List UInt8 // Utf8.valid s = true }

/-- The bytes of a literal, if they are well formed. -/
def Utf8.lit (s : String) : Utf8Text := if h : valid (bytes s) = true then ⟨bytes s, h⟩ else ⟨[], valid_nil⟩

/-- A value. `D` is the type of its numbers that are not integers. -/
inductive Json (D : Type)
  | null
  | bool (b : Bool)
  | int (n : ℤ)
  | float (x : D)
  | str (s : Utf8Text)
  | arr (js : List (Json D))
  | obj (ms : List (Utf8Text × Json D))

namespace Json

open Keyed (ofPairs Ascending)

/-- The member of an object with this key. -/
def find {D : Type} (j : Json D) (k : Utf8Text) : Option (Json D) :=
  match j with
  | .obj ms => ms.lookup k
  | _ => none

variable {D : Type}

/-! ### Libraries -/

/-- A library that reads texts and dumps values, in one line or over lines that
are indented by so many blanks more at every depth. -/
structure Library (D : Type) where
  parse : List UInt8 → Option (Json D)
  dump : Json D → List UInt8
  dumpIndent : ℕ → Json D → List UInt8

/-- A value as the library holds it: integers fit 64 bits, the keys of an object
ascend. -/
inductive WellFormed : Json D → Prop
  | null : WellFormed .null
  | bool (b : Bool) : WellFormed (.bool b)
  | int {n : ℤ} (h : -2 ^ 63 ≤ n ∧ n < 2 ^ 64) : WellFormed (.int n)
  | float (x : D) : WellFormed (.float x)
  | str (s : Utf8Text) : WellFormed (.str s)
  | arr {js : List (Json D)} (h : ∀ j ∈ js, WellFormed j) : WellFormed (.arr js)
  | obj {ms : List (Utf8Text × Json D)} (h : ∀ m ∈ ms, WellFormed m.2) (hk : Ascending ms) : WellFormed (.obj ms)

theorem wellFormed_ofPairs {ms : List (Utf8Text × Json D)} (h : ∀ m ∈ ms, WellFormed m.2) :
    WellFormed (.obj (ofPairs ms)) := by
  refine .obj ?_ (Keyed.ascending_ofPairs ms)
  refine List.foldlRecOn (motive := fun l : List (Utf8Text × Json D) => ∀ m ∈ l, WellFormed m.2) ms _
    (fun _ hm => absurd hm List.not_mem_nil) ?_
  intro l hl e he m hm
  rcases Keyed.mem_insertKey hm with rfl | hm
  · exact h e he
  · exact hl m hm

def isBlank (b : UInt8) : Bool := b = 0x20 ∨ b = 0x09 ∨ b = 0x0A ∨ b = 0x0D

/-- Nothing but blanks. -/
def Blanks (bs : List UInt8) : Prop := ∀ b ∈ bs, isBlank b = true

/-- What the library is relied on for. -/
structure Library.Lawful (lib : Library D) : Prop where
  /-- What is dumped is read back. -/
  parse_dump : ∀ {j : Json D}, WellFormed j → lib.parse (lib.dump j) = some j
  /-- A blank behind a text does not matter. -/
  parse_dump_blank : ∀ {j : Json D}, WellFormed j → ∀ {b : UInt8}, isBlank b = true →
    lib.parse (lib.dump j ++ [b]) = some j
  /-- The text of an object that is cut short is not read. -/
  parse_take_dump : ∀ {ms : List (Utf8Text × Json D)}, WellFormed (.obj ms) → ∀ {k : ℕ},
    k < (lib.dump (.obj ms)).length → lib.parse ((lib.dump (.obj ms)).take k) = none
  /-- Nor is a text that is empty. -/
  parse_nil : lib.parse [] = none
  /-- What is read can be dumped and read again. -/
  wellFormed_of_parse : ∀ {s : List UInt8} {j : Json D}, lib.parse s = some j → WellFormed j
  length_dump_pos : ∀ j : Json D, 0 < (lib.dump j).length
  /-- What is dumped is one line. -/
  ge_of_mem_dump : ∀ (j : Json D) {c : UInt8}, c ∈ lib.dump j → 0x20 ≤ c
  /-- An object of some of the members has no longer text. -/
  length_dump_sublist : ∀ {ms ms' : List (Utf8Text × Json D)}, ms.Sublist ms' →
    (lib.dump (.obj ms)).length ≤ (lib.dump (.obj ms')).length
  parse_dumpIndent : ∀ (indent : ℕ) {j : Json D}, WellFormed j → ∀ {bs : List UInt8}, Blanks bs →
    lib.parse (lib.dumpIndent indent j ++ bs) = some j
  parse_take_dumpIndent : ∀ (indent : ℕ) {ms : List (Utf8Text × Json D)}, WellFormed (.obj ms) → ∀ {k : ℕ},
    k < (lib.dumpIndent indent (.obj ms)).length → lib.parse ((lib.dumpIndent indent (.obj ms)).take k) = none

/-! ### Decimal digits -/

/-- A digit. -/
def digit (n : ℕ) : UInt8 := UInt8.ofNat (48 + n)

def dumpNat (n : ℕ) : List UInt8 := if n = 0 then [48] else (Nat.digits 10 n).reverse.map digit

def dumpInt : ℤ → List UInt8
  | .ofNat n => dumpNat n
  | .negSucc n => 45 :: dumpNat (n + 1)

def isDigit (b : UInt8) : Bool := 48 ≤ b ∧ b ≤ 57

/-- The bytes of which a number consists. -/
def isNumeric (b : UInt8) : Bool := isDigit b ∨ b = 0x2B ∨ b = 0x2D ∨ b = 0x2E ∨ b = 0x65 ∨ b = 0x45

def readNat (s : List UInt8) : ℕ := s.foldl (fun n b => 10 * n + (b.toNat - 48)) 0

theorem isDigit_digit : ∀ n < 10, isDigit (digit n) = true ∧ (digit n).toNat - 48 = n ∧ (digit n = 48 → n = 0) := by
  decide

theorem dumpNat_digits (n : ℕ) : ∀ b ∈ dumpNat n, isDigit b = true := by
  intro b hb
  unfold dumpNat at hb
  split at hb
  · rw [List.mem_singleton.mp hb]
    decide
  · obtain ⟨d, hd, rfl⟩ := List.mem_map.mp hb
    exact (isDigit_digit d (Nat.digits_lt_base (by decide) (List.mem_reverse.mp hd))).1

theorem readNat_dumpNat (n : ℕ) : readNat (dumpNat n) = n := by
  have hdigits : ∀ l : List ℕ, (∀ d ∈ l, d < 10) → readNat (l.reverse.map digit) = Nat.ofDigits 10 l := by
    intro l
    induction l with
    | nil => intro _; rfl
    | cons d l ih =>
      intro h
      have hd := (isDigit_digit d (h d List.mem_cons_self)).2.1
      have hl := ih fun d hd => h d (List.mem_cons_of_mem _ hd)
      unfold readNat at hl ⊢
      rw [List.reverse_cons, List.map_append, List.foldl_append, hl, Nat.ofDigits_cons]
      simp only [List.map_cons, List.map_nil, List.foldl_cons, List.foldl_nil, hd]
      omega
  unfold dumpNat
  split
  · rename_i h
    rw [h]
    rfl
  · rw [hdigits _ fun d hd => Nat.digits_lt_base (by decide) hd, Nat.ofDigits_digits]

theorem dumpNat_ne_nil (n : ℕ) : dumpNat n ≠ [] := by
  unfold dumpNat
  split
  · exact List.cons_ne_nil _ _
  · rename_i h
    simpa using Nat.digits_ne_nil_iff_ne_zero.mpr h

theorem takeWhile_dumpNat (n : ℕ) : (dumpNat n).takeWhile isDigit = dumpNat n :=
  List.takeWhile_eq_self_iff.mpr (dumpNat_digits n)

theorem isNumeric_of_isDigit {b : UInt8} (h : isDigit b = true) : isNumeric b = true := by
  unfold isNumeric
  exact decide_eq_true (.inl h)

theorem dumpInt_ne_nil (n : ℤ) : dumpInt n ≠ [] := by
  cases n with
  | ofNat n => exact dumpNat_ne_nil n
  | negSucc n => exact List.cons_ne_nil _ _

theorem dumpInt_numeric (n : ℤ) : ∀ b ∈ dumpInt n, isNumeric b = true := by
  cases n with
  | ofNat n => exact fun b hb => isNumeric_of_isDigit (dumpNat_digits n b hb)
  | negSucc n =>
    intro b hb
    rcases List.mem_cons.mp hb with rfl | hb
    · decide
    · exact isNumeric_of_isDigit (dumpNat_digits _ b hb)

/-! ### Hexadecimal digits -/

/-- A hexadecimal digit. -/
def hexDigit (n : ℕ) : UInt8 := UInt8.ofNat (if n < 10 then 48 + n else 87 + n)

def hexVal (b : UInt8) : Option ℕ :=
  if 48 ≤ b ∧ b ≤ 57 then some (b.toNat - 48)
  else if 97 ≤ b ∧ b ≤ 102 then some (b.toNat - 87)
  else if 65 ≤ b ∧ b ≤ 70 then some (b.toNat - 55)
  else none

theorem hexVal_hexDigit : ∀ n < 16, hexVal (hexDigit n) = some n := by decide

/-! ### Machine integers -/

theorem ofInt_toNat8 (x : UInt8) : UInt8.ofInt (x.toNat : ℤ) = x := by
  have h : ((x.toNat : ℤ) % 2 ^ 8).toNat = x.toNat := by
    have := x.toNat_lt
    omega
  rw [UInt8.ofInt, h, UInt8.ofNat_toNat]

theorem ofInt_toNat16 (x : UInt16) : UInt16.ofInt (x.toNat : ℤ) = x := by
  have h : ((x.toNat : ℤ) % 2 ^ 16).toNat = x.toNat := by
    have := x.toNat_lt
    omega
  rw [UInt16.ofInt, h, UInt16.ofNat_toNat]

theorem ofInt_toNat32 (x : UInt32) : UInt32.ofInt (x.toNat : ℤ) = x := by
  have h : ((x.toNat : ℤ) % 2 ^ 32).toNat = x.toNat := by
    have := x.toNat_lt
    omega
  rw [UInt32.ofInt, h, UInt32.ofNat_toNat]

theorem ofInt_toNat64 (x : UInt64) : UInt64.ofInt (x.toNat : ℤ) = x := by
  have h : ((x.toNat : ℤ) % 2 ^ 64).toNat = x.toNat := by
    have := x.toNat_lt
    omega
  rw [UInt64.ofInt, h, UInt64.ofNat_toNat]

end Json
end Amind
