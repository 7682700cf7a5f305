/-
# Well-formed UTF-8 as a sequence of characters

A well-formed text is made of characters: bytes of which the first is none that
continues a character and all others are, and of which no part at the start is
well formed (`chars_of_valid`). So what follows a well-formed text decides whether the
whole is well formed (`valid_append`), and a well-formed text is cut well at a place
exactly if no byte that continues a character is there (`valid_take_iff`). Strings are
well formed (`valid_bytes`).

Key definitions: `IsChar`, `Chars`.
-/
import Amind.Lib.Json

namespace Amind
namespace Utf8

/-- The bytes of one character. -/
structure IsChar (c : List UInt8) : Prop where
  first : ∃ a rest, c = a :: rest ∧ cont a = false ∧ ∀ b ∈ rest, cont b = true
  append : ∀ t, valid (c ++ t) = valid t
  cut : ∀ k, 0 < k → k < c.length → valid (c.take k) = false

/-- Characters, one after the other. -/
inductive Chars : List UInt8 → Prop
  | nil : Chars []
  | cons {c rest : List UInt8} (hc : IsChar c) (h : Chars rest) : Chars (c ++ rest)

/-! ### One character -/

section Forms

variable {a b c d : UInt8}

theorem cont_of_lt (h : a < 0x80) : cont a = false := by
  have hall : ∀ a : Fin 256, UInt8.ofFin a < 0x80 → cont (.ofFin a) = false := by decide +kernel
  exact hall a.toFin h

theorem cont_of_ge (h : ¬ a < 0xC2) : cont a = false := by
  have hall : ∀ a : Fin 256, ¬ UInt8.ofFin a < 0xC2 → cont (.ofFin a) = false := by decide +kernel
  exact hall a.toFin h

/-- A first byte that announces others is not well formed without them. -/
theorem valid_singleton (h : ¬ a < 0x80) : valid [a] = false := by
  rw [valid.eq_def]
  dsimp only
  rw [if_neg h]

theorem valid_pair (h : ¬ a < 0x80) (h' : ¬ a < 0xE0) : valid [a, b] = false := by
  rw [valid.eq_def]
  dsimp only
  rw [if_neg h, if_neg h']
  split <;> rfl

theorem valid_triple (h : ¬ a < 0x80) (h' : ¬ a < 0xE0) (h'' : ¬ a < 0xF0) : valid [a, b, c] = false := by
  rw [valid.eq_def]
  dsimp only
  rw [if_neg h, if_neg h', if_neg h'']
  split <;> rfl

theorem isChar_one (h : a < 0x80) : IsChar [a] where
  first := ⟨a, [], rfl, cont_of_lt h, by simp⟩
  append t := by
    change valid (a :: t) = valid t
    rw [valid.eq_def]
    dsimp only
    rw [if_pos h]
  cut k hk hlt := by
    rw [List.length_singleton] at hlt
    omega

theorem isChar_two (h : ¬ a < 0x80) (hfirst : ¬ a < 0xC2) (hlast : a < 0xE0) (hb : cont b = true) :
    IsChar [a, b] where
  first := ⟨a, [b], rfl, cont_of_ge hfirst, by simp [hb]⟩
  append t := by
    change valid (a :: b :: t) = valid t
    rw [valid.eq_def]
    dsimp only
    rw [if_neg h, if_neg hfirst, if_pos hlast, hb, Bool.true_and]
  cut
    | 1, _, _ => valid_singleton h

theorem isChar_three (h : ¬ a < 0x80) (hfirst : ¬ a < 0xC2) (hmid : ¬ a < 0xE0) (hlast : a < 0xF0)
    (hb : cont b = true) (hc : cont c = true)
    (hrange : ((a != 0xE0 || 0xA0 ≤ b) && (a != 0xED || b < 0xA0)) = true) : IsChar [a, b, c] where
  first := ⟨a, [b, c], rfl, cont_of_ge hfirst, by simp [hb, hc]⟩
  append t := by
    change valid (a :: b :: c :: t) = valid t
    obtain ⟨h₁, h₂⟩ := Bool.and_eq_true_iff.mp hrange
    rw [valid.eq_def]
    dsimp only
    rw [if_neg h, if_neg hfirst, if_neg hmid, if_pos hlast, hb, hc, h₁, h₂]
    simp
  cut
    | 1, _, _ => valid_singleton h
    | 2, _, _ => valid_pair h hmid

theorem isChar_four (h : ¬ a < 0x80) (hfirst : ¬ a < 0xC2) (hmid : ¬ a < 0xE0) (hnext : ¬ a < 0xF0)
    (hlast : a < 0xF5) (hb : cont b = true) (hc : cont c = true) (hd : cont d = true)
    (hrange : ((a != 0xF0 || 0x90 ≤ b) && (a != 0xF4 || b < 0x90)) = true) : IsChar [a, b, c, d] where
  first := ⟨a, [b, c, d], rfl, cont_of_ge hfirst, by simp [hb, hc, hd]⟩
  append t := by
    change valid (a :: b :: c :: d :: t) = valid t
    obtain ⟨h₁, h₂⟩ := Bool.and_eq_true_iff.mp hrange
    rw [valid.eq_def]
    dsimp only
    rw [if_neg h, if_neg hfirst, if_neg hmid, if_neg hnext, hb, hc, hd, h₁, h₂]
    simp [hlast]
  cut
    | 1, _, _ => valid_singleton h
    | 2, _, _ => valid_pair h hmid
    | 3, _, _ => valid_triple h hmid hnext

end Forms

/-- What is well formed begins with a character. -/
theorem isChar_of_valid {a : UInt8} {bs : List UInt8} (h : valid (a :: bs) = true) :
    ∃ c rest, a :: bs = c ++ rest ∧ IsChar c ∧ valid rest = true := by
  rw [valid.eq_def] at h
  dsimp only at h
  split at h
  · next h₁ => exact ⟨[a], bs, rfl, isChar_one h₁, h⟩
  · next h₁ =>
    cases bs with
    | nil => cases h
    | cons b cs =>
      dsimp only at h
      split at h
      · cases h
      · next h₂ =>
        split at h
        · next h₃ =>
          obtain ⟨hb, h⟩ := Bool.and_eq_true_iff.mp h
          exact ⟨[a, b], cs, rfl, isChar_two h₁ h₂ h₃ hb, h⟩
        · next h₃ =>
          cases cs with
          | nil => cases h
          | cons c ds =>
            dsimp only at h
            split at h
            · next h₄ =>
              simp only [Bool.and_eq_true_iff] at h
              obtain ⟨⟨⟨⟨hb, hc⟩, hlow⟩, hhigh⟩, h⟩ := h
              exact ⟨[a, b, c], ds, rfl, isChar_three h₁ h₂ h₃ h₄ hb hc (by simp [hlow, hhigh]), h⟩
            · next h₄ =>
              cases ds with
              | nil => cases h
              | cons d es =>
                simp only [Bool.and_eq_true_iff] at h
                obtain ⟨⟨⟨⟨⟨⟨hlast, hb⟩, hc⟩, hd⟩, hlow⟩, hhigh⟩, h⟩ := h
                exact ⟨[a, b, c, d], es, rfl,
                  isChar_four h₁ h₂ h₃ h₄ (of_decide_eq_true hlast) hb hc hd (by simp [hlow, hhigh]), h⟩

/-- **A well-formed text is a sequence of characters.** -/
theorem chars_of_valid : ∀ {s : List UInt8}, valid s = true → Chars s
  | [], _ => .nil
  | a :: bs, h => by
    obtain ⟨c, rest, heq, hc, hrest⟩ := isChar_of_valid h
    have hshort : rest.length ≤ bs.length := by
      obtain ⟨b, cs, rfl, -⟩ := hc.first
      have hlen := congrArg List.length heq
      simp only [List.length_append, List.length_cons] at hlen
      omega
    rw [heq]
    exact .cons hc (chars_of_valid hrest)
termination_by s => s.length

/-! ### Joining and cutting -/

section Cutting

variable {s t : List UInt8}

/-- What follows a well-formed text decides. -/
theorem valid_append (h : valid s = true) (t : List UInt8) : valid (s ++ t) = valid t := by
  induction chars_of_valid h with
  | nil => rfl
  | cons hc hchars ih =>
    rw [hc.append] at h
    rw [List.append_assoc, hc.append, ih h]

/-- A character goes on at a place within it. -/
theorem IsChar.cont_getElem? {c : List UInt8} (h : IsChar c) {k : ℕ} (hk : 0 < k) (hlt : k < c.length)
    (t : List UInt8) :
    ∃ b, (c ++ t)[k]? = some b ∧ cont b = true := by
  obtain ⟨a, rest, rfl, -, hrest⟩ := h.first
  obtain ⟨k, rfl⟩ := Nat.exists_eq_add_one.mpr hk
  have hin : k < rest.length := Nat.lt_of_succ_lt_succ hlt
  refine ⟨rest[k], ?_, hrest _ (List.getElem_mem hin)⟩
  rw [List.cons_append, List.getElem?_cons_succ, List.getElem?_append_left hin, List.getElem?_eq_getElem hin]

/-- **Where a well-formed text can be cut**: wherever no character goes on. -/
theorem valid_take_iff (h : valid s = true) (k : ℕ) :
    valid (s.take k) = true ↔ ∀ b, s[k]? = some b → cont b = false := by
  induction chars_of_valid h generalizing k with
  | nil => simp [valid_nil]
  | @cons c rest hc hchars ih =>
    rw [hc.append] at h
    rcases Nat.eq_zero_or_pos k with rfl | hk
    · obtain ⟨a, cs, rfl, ha, -⟩ := hc.first
      simp [ha, valid_nil]
    · rcases Nat.lt_or_ge k c.length with hlt | hge
      · obtain ⟨b, hb, hcont⟩ := hc.cont_getElem? hk hlt rest
        rw [List.take_append_of_le_length (Nat.le_of_lt hlt), hc.cut k hk hlt, hb]
        simp [hcont]
      · rw [List.take_append, List.take_of_length_le hge, hc.append, ih h, List.getElem?_append_right hge]

end Cutting

/-! ### Strings -/

theorem valid_of_chars {s : List UInt8} (h : Chars s) : valid s = true := by
  induction h with
  | nil => rfl
  | cons hc _ ih => rw [hc.append, ih]

theorem cont_ofNat (n : ℕ) : cont (UInt8.ofNat (n % 0x40 + 0x80)) = true := by
  have hall : ∀ k : Fin 0x40, cont (UInt8.ofNat (k + 0x80)) = true := by decide
  exact hall ⟨n % 0x40, Nat.mod_lt _ (by decide)⟩

/-- A character of a string is one. -/
theorem isChar_utf8EncodeChar (c : Char) : IsChar (String.utf8EncodeChar c) := by
  have hscalar : c.val.toNat < 0xD800 ∨ (0xDFFF < c.val.toNat ∧ c.val.toNat < 0x110000) := c.valid
  have hlt : ∀ {n : ℕ} {b : UInt8}, n < 256 → (UInt8.ofNat n < b ↔ n < b.toNat) := by
    intro n b hn
    rw [UInt8.lt_iff_toNat_lt, UInt8.toNat_ofNat_of_lt' hn]
  unfold String.utf8EncodeChar
  generalize c.val.toNat = v at hscalar
  dsimp only
  split
  · refine isChar_one ?_
    rw [hlt (by omega)]
    simp only [UInt8.toNat_ofNat]
    omega
  · split
    · refine isChar_two ?_ ?_ ?_ (cont_ofNat v) <;> rw [hlt (by omega)] <;> simp only [UInt8.toNat_ofNat] <;> omega
    · split
      · refine isChar_three ?_ ?_ ?_ ?_ (cont_ofNat _) (cont_ofNat v) ?_
        -- the second byte after `E0`, and the surrogates after `ED`
        rotate_right 1
        · simp [bne, UInt8.le_iff_toNat_le, UInt8.lt_iff_toNat_lt, ← UInt8.toNat_inj]
          omega
        all_goals rw [hlt (by omega)]; simp only [UInt8.toNat_ofNat]; omega
      · refine isChar_four ?_ ?_ ?_ ?_ ?_ (cont_ofNat _) (cont_ofNat _) (cont_ofNat v) ?_
        -- the second byte after `F0`, and what is too large after `F4`
        rotate_right 1
        · simp [bne, UInt8.le_iff_toNat_le, UInt8.lt_iff_toNat_lt, ← UInt8.toNat_inj]
          omega
        all_goals rw [hlt (by omega)]; simp only [UInt8.toNat_ofNat]; omega

theorem chars_flatMap : ∀ cs : List Char, Chars (cs.flatMap String.utf8EncodeChar)
  | [] => .nil
  | c :: cs => .cons (isChar_utf8EncodeChar c) (chars_flatMap cs)

/-- The bytes of a string are well formed. -/
@[simp] theorem valid_bytes (s : String) : valid (bytes s) = true := by
  obtain ⟨cs, hcs⟩ := s.isValidUTF8
  have hbytes : bytes s = cs.flatMap String.utf8EncodeChar := by
    rw [bytes, hcs, List.utf8Encode]
    simp
  rw [hbytes]
  exact valid_of_chars (chars_flatMap cs)

end Utf8
end Amind
