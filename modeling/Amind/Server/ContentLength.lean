/-
# The length of a body

The REST port takes the length of a body from what stands behind the first
`content-length:` anywhere in the head, as far as it reads as a number. The field of
that name is the first line behind the request line that starts with it.

`correct_iff` says when the two agree: the text is nowhere in the head, or first in
front of the value of the field, which has digits only or does not read as a number;
or it is elsewhere and reads as the value of the field all the same.
-/
import Amind.Lib.Lines
import Amind.Server.Ports

namespace Amind
namespace Server
namespace ContentLength

open Amind.Core Amind.Auth Amind.Search
open Amind.Json (isDigit readNat)

/-! ### The field -/

def fieldName : Text := Utf8.bytes "content-length:"

/-- The name of the line is that of the field. -/
def IsLength (line : Text) : Prop := fieldName <+: line.map toLower

instance (line : Text) : Decidable (IsLength line) := inferInstanceAs (Decidable (_ <+: _))

/-- A blank around a value. -/
def isBlank (b : UInt8) : Bool := b = 0x20 ∨ b = 0x09

/-- The value in a line, without the blanks around it. -/
def valueIn (line : Text) : Text := Lines.trim isBlank (line.drop fieldName.length)

/-- The value of the field. -/
def lengthField (head : Text) : Option Text := ((headerLines head).find? IsLength).map valueIn

/-- The value has digits only. -/
def AllDigits (v : Text) : Prop := v ≠ [] ∧ ∀ b ∈ v, isDigit b = true

instance (v : Text) : Decidable (AllDigits v) := inferInstanceAs (Decidable (_ ∧ _))

/-- The length that is used is the value of the field, or zero if there is none; a
value that has not only digits is refused, and one that is too large in some way. -/
def Correct (head : Text) : Prop :=
  match lengthField head with
  | none => contentLength head = .ok 0
  | some v =>
    if AllDigits v then
      if readNat v ≤ MAX_BODY_SIZE then contentLength head = .ok (readNat v) else ∃ e, contentLength head = .error e
    else ∃ message, contentLength head = .error ⟨400, message⟩

/-! ### What is read -/

/-- What stands behind a name at a position, up to the end of its line. -/
def valueAt (head : Text) (pos : ℕ) : Text :=
  upTo CRLF ((head.drop (pos + fieldName.length)).dropWhile (· = 0x20))

/-- A number, or none, is what the field says. -/
def Agrees (field : Option Text) (read : Option UInt64) : Prop :=
  match field with
  | none => read = some 0
  | some v =>
    if AllDigits v then
      if readNat v ≤ MAX_BODY_SIZE then read = some (UInt64.ofNat (readNat v))
      else ∀ n, read = some n → MAX_BODY_SIZE < n.toNat
    else read = none

/-- The text is not in the head; or it is first in the line of the field, whose value
has digits only or does not read as a number; or it is first elsewhere, and what is
read there is what the field says. -/
inductive Trusted (head : Text) : Prop
  | absent (h : find fieldName (head.map toLower) = none)
  | inField (pos : ℕ) (h : find fieldName (head.map toLower) = some pos) (hline : StartsLine head pos)
      (hvalue : (∃ v, lengthField head = some v ∧ AllDigits v) ∨ stoull (valueAt head pos) = none)
  | elsewhere (pos : ℕ) (h : find fieldName (head.map toLower) = some pos) (hline : ¬ StartsLine head pos)
      (hsame : Agrees (lengthField head) (stoull (valueAt head pos)))

/-! ### The first line of the name -/

theorem headerLines_cons (b : UInt8) (s : Text) : headerLines (b :: s) =
    (if CRLF <+: b :: s then [upTo CRLF ((b :: s).drop 2)] else []) ++ headerLines s := by
  unfold headerLines
  rw [List.tails_cons, List.filterMap_cons]
  by_cases h : CRLF <+: b :: s
  · rw [if_pos h, if_pos h]
    rfl
  · rw [if_neg h, if_neg h]
    rfl

/-- A line behind the first starts with the name where it stands in the text. -/
theorem isLength_upTo {t : Text} : IsLength (upTo CRLF t) ↔ fieldName <+: t.map toLower := by
  constructor
  · intro h
    refine h.trans ?_
    unfold upTo
    split
    · exact (List.take_prefix _ _).map toLower
    · exact List.prefix_rfl
  · intro h
    obtain ⟨rest, hrest⟩ := h
    obtain ⟨name, back, rfl, hname, -⟩ := List.map_eq_append_iff.mp hrest.symm
    have hreturn : ∀ b ∈ name, CRLF.head? ≠ some b := RestServer.no_return (by decide +kernel) hname
    rw [IsLength, upTo_append hreturn CRLF_ne_nil, List.map_append, hname]
    exact List.prefix_append _ _

/-- Where the name is first, if this is in a line, is the first line of the name. -/
theorem find_headerLines : ∀ {head : Text} {pos : ℕ}, find fieldName (head.map toLower) = some pos →
    StartsLine head pos → (headerLines head).find? IsLength = some (upTo CRLF (head.drop pos))
  | [], pos, h, _ => by cases h
  | b :: s, pos, h, hs => by
    obtain ⟨htwo, hstart⟩ := hs
    have hname : fieldName <+: ((b :: s).map toLower).drop pos := prefix_of_find h
    rw [headerLines_cons]
    by_cases hpos : pos = 2
    · subst hpos
      have hline : IsLength (upTo CRLF ((b :: s).drop 2)) := by
        rw [isLength_upTo, List.map_drop]
        exact hname
      have hcrlf : CRLF <+: b :: s := hstart
      rw [if_pos hcrlf, List.singleton_append, List.find?_cons_of_pos (by simpa using hline)]
    · obtain ⟨k, rfl⟩ : ∃ k, pos = k + 1 := ⟨pos - 1, by omega⟩
      have hrest : find fieldName (s.map toLower) = some k := by
        rw [List.map_cons, find] at h
        split at h
        · cases h
        · obtain ⟨j, hj, heq⟩ := Option.map_eq_some_iff.mp h
          rw [hj, Nat.succ.inj heq]
      have ih := find_headerLines hrest ⟨by omega, by
        rw [show k + 1 - 2 = (k - 2) + 1 by omega, List.drop_succ_cons] at hstart
        exact hstart⟩
      rw [List.find?_append, ih, List.drop_succ_cons (a := b) (i := k)]
      split
      · next hcrlf =>
        have hline : ¬ IsLength (upTo CRLF ((b :: s).drop 2)) := by
          intro hline
          rw [isLength_upTo, List.map_drop] at hline
          obtain ⟨j, hj, hfind⟩ := find_of_drop hline
          rw [h] at hfind
          have := Option.some.inj hfind
          omega
        rw [List.find?_cons_of_neg (by simpa using hline)]
        rfl
      · rfl

/-- Without the name there is no field. -/
theorem lengthField_eq_none : ∀ {head : Text}, find fieldName (head.map toLower) = none →
    (headerLines head).find? IsLength = none
  | [], _ => rfl
  | b :: s, h => by
    have hrest : find fieldName (s.map toLower) = none := by
      rw [List.map_cons, find] at h
      split at h
      · cases h
      · exact Option.map_eq_none_iff.mp h
    rw [headerLines_cons, List.find?_append, lengthField_eq_none hrest]
    split
    · have hline : ¬ IsLength (upTo CRLF ((b :: s).drop 2)) := by
        intro hline
        rw [isLength_upTo, List.map_drop] at hline
        obtain ⟨j, -, hfind⟩ := find_of_drop hline
        rw [h] at hfind
        cases hfind
      rw [List.find?_cons_of_neg (by simpa using hline)]
      rfl
    · rfl

/-! ### Numbers -/

/-- Digits between blanks are read as their number. -/
theorem stoull_digits {front v back : Text} (hfront : ∀ b ∈ front, isSpace b = true) (hv : AllDigits v)
    (hback : ∀ b ∈ back, isDigit b = false) : stoull (front ++ v ++ back) =
      if 2 ^ 64 ≤ readNat v then none else some (UInt64.ofNat (readNat v)) := by
  obtain ⟨hne, hdigits⟩ := hv
  obtain ⟨b, w, rfl⟩ := List.exists_cons_of_ne_nil hne
  have hb := hdigits b List.mem_cons_self
  have hspaces : (front ++ (b :: w) ++ back).dropWhile isSpace = b :: w ++ back := by
    rw [List.append_assoc, List.dropWhile_append_of_pos hfront, List.cons_append, List.dropWhile_cons_of_neg]
    rw [isSpace_of_isDigit hb]
    exact Bool.false_ne_true
  have hminus : (b :: w ++ back).head? ≠ some 0x2D := by
    intro h
    obtain rfl : b = 0x2D := Option.some.inj h
    exact absurd hb (by decide)
  have hplus : (b :: w ++ back).head? ≠ some 0x2B := by
    intro h
    obtain rfl : b = 0x2B := Option.some.inj h
    exact absurd hb (by decide)
  have hall : (b :: w ++ back).takeWhile isDigit = b :: w := by
    rw [List.takeWhile_append_of_pos hdigits]
    cases back with
    | nil => simp
    | cons c back =>
      rw [List.takeWhile_cons_of_neg (by simp [hback c List.mem_cons_self]), List.append_nil]
  unfold stoull
  simp only [hspaces, hminus, hplus, decide_false, or_self, if_false, hall, hne, Bool.false_eq_true]

theorem dropWhile_isBlank (t : Text) : (t.dropWhile (· = 0x20)).dropWhile isBlank = t.dropWhile isBlank := by
  induction t with
  | nil => rfl
  | cons b t ih =>
    by_cases hb : b = 0x20
    · subst hb
      rw [List.dropWhile_cons_of_pos (by decide), ih, List.dropWhile_cons_of_pos (by decide)]
    · rw [List.dropWhile_cons_of_neg (by simpa using hb)]

/-- The blanks around a value, without those that the code passes over. -/
theorem dropWhile_eq_trim (t : Text) : ∃ front back, t.dropWhile (· = 0x20) = front ++ Lines.trim isBlank t ++ back ∧
    (∀ b ∈ front, isBlank b = true) ∧ ∀ b ∈ back, isBlank b = true := by
  refine ⟨(t.dropWhile (· = 0x20)).takeWhile isBlank, (t.dropWhile isBlank).rtakeWhile isBlank, ?_,
    fun b hb => List.mem_takeWhile_imp hb, fun b hb => List.mem_rtakeWhile_imp hb⟩
  rw [Lines.trim, List.append_assoc, List.rdropWhile_append_rtakeWhile, ← dropWhile_isBlank,
    List.takeWhile_append_dropWhile]

theorem isSpace_of_isBlank {b : UInt8} (h : isBlank b = true) : isSpace b = true := by
  rcases of_decide_eq_true h with rfl | rfl <;> decide

theorem not_isDigit_of_isBlank {b : UInt8} (h : isBlank b = true) : isDigit b = false := by
  rcases of_decide_eq_true h with rfl | rfl <;> decide

/-! ### The value of the field -/

section Field

variable {head : Text} {pos : ℕ}

theorem lengthField_eq (h : find fieldName (head.map toLower) = some pos) (hs : StartsLine head pos) :
    lengthField head = some (valueIn (upTo CRLF (head.drop pos))) := by
  rw [lengthField, find_headerLines h hs]
  rfl

/-- What stands behind the name is what the line has behind it. -/
theorem valueAt_eq (h : find fieldName (head.map toLower) = some pos) :
    valueAt head pos = ((upTo CRLF (head.drop pos)).drop fieldName.length).dropWhile (· = 0x20) := by
  obtain ⟨back, hback⟩ : fieldName <+: (head.drop pos).map toLower := by
    rw [List.map_drop]
    exact prefix_of_find h
  obtain ⟨name, value, hsplit, hname, -⟩ := List.map_eq_append_iff.mp hback.symm
  have hlen : name.length = fieldName.length := by rw [← hname, List.length_map]
  have hreturn : ∀ b ∈ name, CRLF.head? ≠ some b := RestServer.no_return (by decide +kernel) hname
  rw [valueAt, ← List.drop_drop, hsplit, upTo_append hreturn CRLF_ne_nil, List.drop_left' hlen, List.drop_left' hlen,
    RestServer.dropWhile_upTo]

/-- A value of digits is read as their number. -/
theorem stoull_valueAt (h : find fieldName (head.map toLower) = some pos)
    (hv : AllDigits (valueIn (upTo CRLF (head.drop pos)))) : stoull (valueAt head pos) =
      if 2 ^ 64 ≤ readNat (valueIn (upTo CRLF (head.drop pos))) then none
      else some (UInt64.ofNat (readNat (valueIn (upTo CRLF (head.drop pos))))) := by
  obtain ⟨front, back, hsplit, hfront, hback⟩ := dropWhile_eq_trim ((upTo CRLF (head.drop pos)).drop fieldName.length)
  rw [valueAt_eq h, hsplit]
  exact stoull_digits (fun b hb => isSpace_of_isBlank (hfront b hb)) hv fun b hb => not_isDigit_of_isBlank (hback b hb)

theorem contentLength_of_none (h : find fieldName (head.map toLower) = none) : contentLength head = .ok 0 := by
  have hfind : find (Utf8.bytes "content-length:") (head.map toLower) = none := h
  rw [contentLength, headerValue, hfind]
  rfl

theorem contentLength_of_some (h : find fieldName (head.map toLower) = some pos) : contentLength head =
    match stoull (valueAt head pos) with
    | none => .error ⟨400, "invalid Content-Length"⟩
    | some n => if MAX_BODY_SIZE < n.toNat then .error ⟨413, "request body too large"⟩ else .ok n.toNat := by
  have hfind : find (Utf8.bytes "content-length:") (head.map toLower) = some pos := h
  rw [contentLength, headerValue, hfind]
  rfl

theorem contentLength_eq_ok_iff (h : find fieldName (head.map toLower) = some pos) {n : ℕ} (hn : n ≤ MAX_BODY_SIZE) :
    contentLength head = .ok n ↔ stoull (valueAt head pos) = some (UInt64.ofNat n) := by
  have hnat : (UInt64.ofNat n).toNat = n := UInt64.toNat_ofNat_of_lt' (Nat.lt_of_le_of_lt hn (by decide))
  rw [contentLength_of_some h]
  cases stoull (valueAt head pos) with
  | none => exact iff_of_false (fun h => by cases h) (fun h => by cases h)
  | some m =>
    dsimp only
    rw [Option.some.injEq, ← UInt64.toNat_inj, hnat]
    split
    · exact iff_of_false (fun h => by cases h) (by omega)
    · rw [Except.ok.injEq]

theorem contentLength_error_iff (h : find fieldName (head.map toLower) = some pos) :
    (∃ e, contentLength head = .error e) ↔ ∀ n, stoull (valueAt head pos) = some n → MAX_BODY_SIZE < n.toNat := by
  rw [contentLength_of_some h]
  cases stoull (valueAt head pos) with
  | none => exact iff_of_true ⟨_, rfl⟩ fun n h => by cases h
  | some n =>
    dsimp only
    split
    · next hlarge => exact iff_of_true ⟨_, rfl⟩ fun m hm => Option.some.inj hm ▸ hlarge
    · next hle => exact iff_of_false (fun ⟨_, h⟩ => by cases h) fun h => hle (h n rfl)

theorem contentLength_refused_iff (h : find fieldName (head.map toLower) = some pos) :
    (∃ message, contentLength head = .error ⟨400, message⟩) ↔ stoull (valueAt head pos) = none := by
  rw [contentLength_of_some h]
  cases stoull (valueAt head pos) with
  | none => exact iff_of_true ⟨_, rfl⟩ rfl
  | some n =>
    refine iff_of_false ?_ (Option.some_ne_none n)
    rintro ⟨message, h⟩
    dsimp only at h
    split at h <;> cases h

/-- The length is correct if what is read behind the name is what the field says. -/
theorem correct_iff_agrees (h : find fieldName (head.map toLower) = some pos) :
    Correct head ↔ Agrees (lengthField head) (stoull (valueAt head pos)) := by
  unfold Correct Agrees
  cases lengthField head with
  | none => exact contentLength_eq_ok_iff h (Nat.zero_le _)
  | some v =>
    dsimp only
    by_cases hv : AllDigits v
    · rw [if_pos hv, if_pos hv]
      by_cases hsmall : readNat v ≤ MAX_BODY_SIZE
      · rw [if_pos hsmall, if_pos hsmall, contentLength_eq_ok_iff h hsmall]
      · rw [if_neg hsmall, if_neg hsmall, contentLength_error_iff h]
    · rw [if_neg hv, if_neg hv, contentLength_refused_iff h]

/-- In the line of the field, what is read is what it says if it has digits only, or
does not read as a number. -/
theorem agrees_iff_of_startsLine (h : find fieldName (head.map toLower) = some pos) (hs : StartsLine head pos) :
    Agrees (lengthField head) (stoull (valueAt head pos)) ↔
      (∃ v, lengthField head = some v ∧ AllDigits v) ∨ stoull (valueAt head pos) = none := by
  have hmax : MAX_BODY_SIZE < 2 ^ 64 := by decide
  rw [lengthField_eq h hs]
  by_cases hv : AllDigits (valueIn (upTo CRLF (head.drop pos)))
  · refine iff_of_true ?_ (.inl ⟨_, rfl, hv⟩)
    rw [stoull_valueAt h hv, Agrees, if_pos hv]
    split
    · next hsmall => rw [if_neg (by omega)]
    · next hlarge =>
      split
      · exact fun n hn => by cases hn
      · next hlt =>
        rintro n hn
        rw [← Option.some.inj hn, UInt64.toNat_ofNat_of_lt' (Nat.lt_of_not_le hlt)]
        omega
  · have hnot : ¬ ∃ v, some (valueIn (upTo CRLF (head.drop pos))) = some v ∧ AllDigits v := by
      rintro ⟨v, hsome, hdigits⟩
      exact hv (Option.some.inj hsome ▸ hdigits)
    rw [or_iff_right hnot, Agrees, if_neg hv]

end Field

/-- **When the length of a body comes from its field.** -/
theorem correct_iff (head : Text) : Correct head ↔ Trusted head := by
  cases h : find fieldName (head.map toLower) with
  | none =>
    refine iff_of_true ?_ (.absent h)
    rw [Correct, lengthField, lengthField_eq_none h]
    exact contentLength_of_none h
  | some pos =>
    have hfirst : ∀ {i}, find fieldName (head.map toLower) = some i → i = pos :=
      fun hi => Option.some.inj (hi.symm.trans h)
    rw [correct_iff_agrees h]
    by_cases hs : StartsLine head pos
    · rw [agrees_iff_of_startsLine h hs]
      constructor
      · exact .inField pos h hs
      · intro ht
        cases ht with
        | absent hnone => exact absurd (hnone.symm.trans h) (Option.some_ne_none pos).symm
        | inField i hi _ hvalue => exact hfirst hi ▸ hvalue
        | elsewhere i hi hline _ => exact absurd (hfirst hi ▸ hs) hline
    · constructor
      · exact .elsewhere pos h hs
      · intro ht
        cases ht with
        | absent hnone => exact absurd (hnone.symm.trans h) (Option.some_ne_none pos).symm
        | inField i hi hline _ => exact absurd (hfirst hi ▸ hline) hs
        | elsewhere i hi _ hsame => exact hfirst hi ▸ hsame

/-- The value of another field is used. -/
theorem length_of_other : ¬ Correct (Utf8.bytes "POST /v1/memories HTTP/1.1\r\nX-Content-Length: 5") := by
  have hfield : lengthField (Utf8.bytes "POST /v1/memories HTTP/1.1\r\nX-Content-Length: 5") = none := by decide +kernel
  have hused : contentLength (Utf8.bytes "POST /v1/memories HTTP/1.1\r\nX-Content-Length: 5") = .ok 5 := by
    decide +kernel
  intro h
  rw [Correct, hfield, hused] at h
  cases h

end ContentLength
end Server
end Amind
