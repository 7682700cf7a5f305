/-
# Texts with blanks

`Spaced` says that a text is that of a value with blanks where they may be: behind a
bracket, before one, around a comma and around a colon. Such a text is read as the value
(`parse_spaced`), and that of an object is not read when it is cut short
(`parse_take_spaced`). What is dumped is one (`spaced_dump`), and so is an indented text
(`spaced_dumpIndent`).
-/
import Amind.Lib.JsonText

namespace Amind
namespace Json

variable {D : Type}

/-- A value with nothing in it that blanks could stand around. -/
def Plain : Json D → Prop
  | .arr (_ :: _) | .obj (_ :: _) => False
  | _ => True

mutual

/-- The text of a value. -/
inductive Spaced (fl : Floating D) : Json D → List UInt8 → Prop
  | plain {j : Json D} : Plain j → Spaced fl j (dump fl j)
  | arr {js : List (Json D)} {bs s : List UInt8} : Blanks bs → SpacedElements fl js s →
    Spaced fl (.arr js) (0x5B :: (bs ++ s))
  | obj {ms : List (Utf8Text × Json D)} {bs s : List UInt8} : Blanks bs → SpacedMembers fl ms s →
      Spaced fl (.obj ms) (0x7B :: (bs ++ s))

/-- The text of one element or more, with the bracket. -/
inductive SpacedElements (fl : Floating D) : List (Json D) → List UInt8 → Prop
  | last {j : Json D} {s bs : List UInt8} : Spaced fl j s → Blanks bs → SpacedElements fl [j] (s ++ (bs ++ [0x5D]))
  | more {j : Json D} {js : List (Json D)} {s bs bs' t : List UInt8} : Spaced fl j s → Blanks bs → Blanks bs' →
      SpacedElements fl js t → SpacedElements fl (j :: js) (s ++ (bs ++ 0x2C :: (bs' ++ t)))

/-- The text of one member or more, with the brace. -/
inductive SpacedMembers (fl : Floating D) : List (Utf8Text × Json D) → List UInt8 → Prop
  | last {k : Utf8Text} {j : Json D} {s bs bs' bs'' : List UInt8} : Blanks bs → Blanks bs' → Spaced fl j s →
    Blanks bs'' →
      SpacedMembers fl [(k, j)] (dumpString k.val ++ (bs ++ 0x3A :: (bs' ++ (s ++ (bs'' ++ [0x7D])))))
  | more {k : Utf8Text} {j : Json D} {ms : List (Utf8Text × Json D)} {s bs bs' bs'' bs₃ t : List UInt8} : Blanks bs →
      Blanks bs' → Spaced fl j s → Blanks bs'' → Blanks bs₃ → SpacedMembers fl ms t →
      SpacedMembers fl ((k, j) :: ms)
        (dumpString k.val ++ (bs ++ 0x3A :: (bs' ++ (s ++ (bs'' ++ 0x2C :: (bs₃ ++ t))))))

end

variable {fl : Floating D}

/-! ### Blanks are skipped -/

theorem skip_blanks {bs : List UInt8} (h : Blanks bs) (s : List UInt8) : skip (bs ++ s) = skip s := by
  induction bs with
  | nil => rfl
  | cons b bs ih =>
    have hb : isBlank b = true := h b List.mem_cons_self
    rw [List.cons_append, skip, List.dropWhile_cons, if_pos hb]
    exact ih fun c hc => h c (List.mem_cons_of_mem _ hc)

theorem blank_of_closing {b : UInt8} (h : isClosing b = false) : isBlank b = false := by
  by_contra hb
  simp [isClosing, Bool.eq_true_of_not_eq_false hb] at h

/-- Blanks and then something else. -/
theorem skip_blanks_cons {bs : List UInt8} (h : Blanks bs) {c : UInt8} (hc : isBlank c = false) (s : List UInt8) :
    skip (bs ++ c :: s) = c :: s := by rw [skip_blanks h, skip_cons hc]

/-- No number goes on with a blank. -/
theorem follows_blanks {bs : List UInt8} (h : Blanks bs) {c : UInt8} (hc : isNumeric c = false) (s : List UInt8) :
    Follows (bs ++ c :: s) := by
  intro b hb
  cases bs with
  | nil =>
    obtain rfl : c = b := Option.some.inj hb
    exact hc
  | cons b' bs =>
    obtain rfl : b' = b := Option.some.inj hb
    have hblank : b' = 0x20 ∨ b' = 0x09 ∨ b' = 0x0A ∨ b' = 0x0D := of_decide_eq_true (h b' List.mem_cons_self)
    rcases hblank with rfl | rfl | rfl | rfl <;> decide

/-- A text starts with no blank and no closing bracket. -/
theorem spaced_cons (hfl : fl.Lawful) {j : Json D} {s : List UInt8} (h : Spaced fl j s) :
    ∃ b t, s = b :: t ∧ isClosing b = false := by
  cases h with
  | plain _ => exact dump_cons hfl j
  | arr _ _ => exact ⟨_, _, rfl, by decide⟩
  | obj _ _ => exact ⟨_, _, rfl, by decide⟩

theorem skip_spaced (hfl : fl.Lawful) {j : Json D} {s : List UInt8} (h : Spaced fl j s) (t : List UInt8) :
    skip (s ++ t) = s ++ t := by
  obtain ⟨b, s, rfl, hb⟩ := spaced_cons hfl h
  exact skip_cons (blank_of_closing hb) _

theorem spacedElements_cons (hfl : fl.Lawful) {js : List (Json D)} {s : List UInt8} (h : SpacedElements fl js s) :
    ∃ b t, s = b :: t ∧ isClosing b = false := by
  cases h with
  | last hj _ | more hj _ _ _ =>
    obtain ⟨b, t, rfl, hb⟩ := spaced_cons hfl hj
    exact ⟨b, _, rfl, hb⟩

theorem spacedMembers_cons {ms : List (Utf8Text × Json D)} {s : List UInt8} (h : SpacedMembers fl ms s) :
    ∃ t, s = 0x22 :: t := by
  cases h with
  | last _ _ _ _ => exact ⟨_, rfl⟩
  | more _ _ _ _ _ _ => exact ⟨_, rfl⟩

/-! ### Such a text is read -/

/-- What is read with fuel `n`. -/
structure ReadsSpaced (fl : Floating D) (n : ℕ) : Prop where
  value : ∀ {j : Json D} {s : List UInt8} (rest : List UInt8), Spaced fl j s → WellFormed j → s.length ≤ n →
    Follows rest → readValue fl n (s ++ rest) = some (j, rest)
  elements : ∀ {js : List (Json D)} {s : List UInt8} (rest : List UInt8), SpacedElements fl js s →
    (∀ i ∈ js, WellFormed i) → s.length ≤ n → readElements fl n (s ++ rest) = some (js, rest)
  members : ∀ {ms : List (Utf8Text × Json D)} {s : List UInt8} (rest : List UInt8), SpacedMembers fl ms s →
    (∀ m ∈ ms, WellFormed m.2) → s.length ≤ n → readMembers fl n (s ++ rest) = some (ms, rest)

theorem readsSpaced_zero (hfl : fl.Lawful) : ReadsSpaced fl 0 := by
  refine ⟨fun rest h _ hlen => ?_, fun rest h _ hlen => ?_, fun rest h _ hlen => ?_⟩
  · obtain ⟨b, t, rfl, -⟩ := spaced_cons hfl h
    cases hlen
  · obtain ⟨b, t, rfl, -⟩ := spacedElements_cons hfl h
    cases hlen
  · obtain ⟨t, rfl⟩ := spacedMembers_cons h
    cases hlen

theorem readValue_plain (hfl : fl.Lawful) (n : ℕ) {j : Json D} (rest : List UInt8) (h : Plain j) (hj : WellFormed j)
    (hr : Follows rest) : readValue fl (n + 1) (dump fl j ++ rest) = some (j, rest) := by
  cases hj with
  | null => simp [dump, readValue]
  | bool b => cases b <;> simp [dump, readValue]
  | int hn =>
    rw [dump]
    exact readValue_number (dumpInt_ne_nil _) (dumpInt_numeric _) hr (readNumber_dumpInt fl hn)
  | float x =>
    rw [dump]
    exact readValue_number (hfl.ne_nil x) (hfl.numeric x) hr (hfl.readNumber_write x)
  | str s =>
    rw [dump, dumpString]
    have htext : 0x22 :: (s.val.flatMap escape ++ [0x22]) ++ rest = 0x22 :: (s.val.flatMap escape ++ 0x22 :: rest) := by
      simp
    rw [htext, readValue, if_pos rfl, readString_dumpString]
    rfl
  | @arr js _ =>
    cases js with
    | nil =>
      rw [dump]
      have hskip : skip (0x5D :: rest) = 0x5D :: rest := skip_cons (by decide) rest
      simp [readValue, hskip]
    | cons _ _ => exact h.elim
  | @obj ms _ _ =>
    cases ms with
    | nil =>
      rw [dump]
      have hskip : skip (0x7D :: rest) = 0x7D :: rest := skip_cons (by decide) rest
      simp [readValue, hskip]
    | cons _ _ => exact h.elim

theorem ReadsSpaced.value_succ (hfl : fl.Lawful) {n : ℕ} (ih : ReadsSpaced fl n) {j : Json D} {s : List UInt8}
    (rest : List UInt8) (h : Spaced fl j s) (hj : WellFormed j) (hlen : s.length ≤ n + 1) (hr : Follows rest) :
    readValue fl (n + 1) (s ++ rest) = some (j, rest) := by
  cases h with
  | plain h => exact readValue_plain hfl n rest h hj hr
  | @arr js bs s hbs hs =>
    cases hj with
    | arr hjs =>
      obtain ⟨b, t, hcons, hb⟩ := spacedElements_cons hfl hs
      have hskip : skip (bs ++ s ++ rest) = s ++ rest := by
        rw [List.append_assoc, skip_blanks hbs, hcons]
        exact skip_cons (blank_of_closing hb) _
      have hhead : (s ++ rest).head? ≠ some 0x5D := by
        rw [hcons]
        intro hclose
        rw [Option.some.inj hclose] at hb
        exact absurd hb (by decide)
      simp only [List.length_cons, List.length_append] at hlen
      rw [List.cons_append, readValue, if_neg (by decide), if_pos rfl, hskip, if_neg hhead,
        ih.elements rest hs hjs (by omega)]
      rfl
  | @obj ms bs s hbs hs =>
    cases hj with
    | obj hms hkeys =>
      obtain ⟨t, hcons⟩ := spacedMembers_cons hs
      have hskip : skip (bs ++ s ++ rest) = s ++ rest := by
        rw [List.append_assoc, skip_blanks hbs, hcons]
        exact skip_cons (by decide) _
      have hhead : (s ++ rest).head? ≠ some 0x7D := by
        rw [hcons]
        intro hclose
        exact absurd (Option.some.inj hclose) (by decide)
      simp only [List.length_cons, List.length_append] at hlen
      rw [List.cons_append, readValue, if_neg (by decide), if_neg (by decide), if_pos rfl, hskip, if_neg hhead,
        ih.members rest hs hms (by omega)]
      show some (Json.obj (Keyed.ofPairs ms), rest) = _
      rw [Keyed.ofPairs_of_ascending hkeys]

theorem ReadsSpaced.elements_succ (hfl : fl.Lawful) {n : ℕ} (ih : ReadsSpaced fl n) {js : List (Json D)}
    {s : List UInt8} (rest : List UInt8) (h : SpacedElements fl js s) (hjs : ∀ i ∈ js, WellFormed i)
    (hlen : s.length ≤ n + 1) : readElements fl (n + 1) (s ++ rest) = some (js, rest) := by
  cases h with
  | @last j s bs hs hbs =>
    simp only [List.length_append, List.length_singleton] at hlen
    have htext : s ++ (bs ++ [0x5D]) ++ rest = s ++ (bs ++ 0x5D :: rest) := by simp
    have hvalue := ih.value (bs ++ 0x5D :: rest) hs (hjs j List.mem_cons_self) (by omega)
      (follows_blanks hbs (by decide) rest)
    rw [htext, readElements, hvalue, Option.bind_some]
    simp only [skip_blanks_cons hbs (show isBlank 0x5D = false by decide)]
    exact if_pos rfl
  | @more j js s bs bs' t hs hbs hbs' ht =>
    simp only [List.length_append, List.length_cons] at hlen
    have htext : s ++ (bs ++ 0x2C :: (bs' ++ t)) ++ rest = s ++ (bs ++ 0x2C :: (bs' ++ (t ++ rest))) := by simp
    have hvalue := ih.value (bs ++ 0x2C :: (bs' ++ (t ++ rest))) hs (hjs j List.mem_cons_self) (by omega)
      (follows_blanks hbs (by decide) _)
    obtain ⟨b, t', hcons, hb⟩ := spacedElements_cons hfl ht
    have hskip : skip (bs' ++ (t ++ rest)) = t ++ rest := by
      rw [skip_blanks hbs', hcons]
      exact skip_cons (blank_of_closing hb) _
    have hmore := ih.elements rest ht (fun i hi => hjs i (List.mem_cons_of_mem _ hi)) (by omega)
    rw [htext, readElements, hvalue, Option.bind_some]
    simp only [skip_blanks_cons hbs (show isBlank 0x2C = false by decide), List.head?_cons, List.tail_cons,
      hskip, hmore]
    rw [if_neg (by decide)]
    rfl

/-- A key, and its value behind the colon. -/
theorem ReadsSpaced.member {n : ℕ} (ih : ReadsSpaced fl n) {k : Utf8Text} {j : Json D} {s bs bs' rest : List UInt8}
    (hbs : Blanks bs) (hbs' : Blanks bs') (hfl : fl.Lawful) (hs : Spaced fl j s) (hj : WellFormed j)
    (hlen : s.length ≤ n)
    (hr : Follows rest) :
    readMembers fl (n + 1) (dumpString k.val ++ (bs ++ 0x3A :: (bs' ++ (s ++ rest)))) =
      if (skip rest).head? = some 0x7D then some ([(k, j)], (skip rest).tail)
      else if (skip rest).head? = some 0x2C then
        (readMembers fl n (skip (skip rest).tail)).map fun (ms, s) => ((k, j) :: ms, s)
      else none := by
  have htext : dumpString k.val ++ (bs ++ 0x3A :: (bs' ++ (s ++ rest))) =
      0x22 :: (k.val.flatMap escape ++ 0x22 :: (bs ++ 0x3A :: (bs' ++ (s ++ rest)))) := by
    simp [dumpString]
  have hvalue : skip (bs' ++ (s ++ rest)) = s ++ rest := by rw [skip_blanks hbs', skip_spaced hfl hs]
  rw [readMembers, htext]
  simp only [List.head?_cons, List.tail_cons, if_pos, readString_dumpString, Option.bind_some,
    skip_blanks_cons hbs (show isBlank 0x3A = false by decide), hvalue, ih.value rest hs hj hlen hr]

theorem ReadsSpaced.members_succ (hfl : fl.Lawful) {n : ℕ} (ih : ReadsSpaced fl n) {ms : List (Utf8Text × Json D)}
    {s : List UInt8} (rest : List UInt8) (h : SpacedMembers fl ms s) (hms : ∀ m ∈ ms, WellFormed m.2)
    (hlen : s.length ≤ n + 1) : readMembers fl (n + 1) (s ++ rest) = some (ms, rest) := by
  cases h with
  | @last k j s bs bs' bs'' hbs hbs' hs hbs'' =>
    simp only [dumpString, List.length_append, List.length_cons] at hlen
    have htext : dumpString k.val ++ (bs ++ 0x3A :: (bs' ++ (s ++ (bs'' ++ [0x7D])))) ++ rest =
        dumpString k.val ++ (bs ++ 0x3A :: (bs' ++ (s ++ (bs'' ++ 0x7D :: rest)))) := by simp
    rw [htext, ih.member hbs hbs' hfl hs (hms _ List.mem_cons_self) (by omega) (follows_blanks hbs'' (by decide) rest)]
    simp only [skip_blanks_cons hbs'' (show isBlank 0x7D = false by decide)]
    exact if_pos rfl
  | @more k j ms s bs bs' bs'' bs₃ t hbs hbs' hs hbs'' hbs₃ ht =>
    simp only [dumpString, List.length_append, List.length_cons] at hlen
    have htext : dumpString k.val ++ (bs ++ 0x3A :: (bs' ++ (s ++ (bs'' ++ 0x2C :: (bs₃ ++ t))))) ++ rest =
        dumpString k.val ++ (bs ++ 0x3A :: (bs' ++ (s ++ (bs'' ++ 0x2C :: (bs₃ ++ (t ++ rest)))))) := by simp
    obtain ⟨t', hcons⟩ := spacedMembers_cons ht
    have hskip : skip (bs₃ ++ (t ++ rest)) = t ++ rest := by
      rw [skip_blanks hbs₃, hcons]
      exact skip_cons (by decide) _
    have hmore := ih.members rest ht (fun m hm => hms m (List.mem_cons_of_mem _ hm)) (by omega)
    rw [htext, ih.member hbs hbs' hfl hs (hms _ List.mem_cons_self) (by omega) (follows_blanks hbs'' (by decide) _)]
    simp only [skip_blanks_cons hbs'' (show isBlank 0x2C = false by decide), List.head?_cons, List.tail_cons,
      hskip, hmore]
    rw [if_neg (by decide)]
    rfl

theorem readsSpaced (hfl : fl.Lawful) : ∀ n, ReadsSpaced fl n
  | 0 => readsSpaced_zero hfl
  | n + 1 =>
    have ih := readsSpaced hfl n
    ⟨ih.value_succ hfl, ih.elements_succ hfl, ih.members_succ hfl⟩

/-- **A text with blanks is read as its value**, with blanks behind it as well. -/
theorem parse_spaced (hfl : fl.Lawful) {j : Json D} {s bs : List UInt8} (h : Spaced fl j s) (hj : WellFormed j)
    (hbs : Blanks bs) : parse fl (s ++ bs) = some j := by
  obtain ⟨b, t, hcons, hb⟩ := spaced_cons hfl h
  have hhead : (s ++ bs).head? ≠ some 0xEF := by
    rw [hcons]
    intro hmark
    rw [Option.some.inj hmark] at hb
    exact absurd hb (by decide)
  have hfollows : Follows bs := by
    have h := follows_blanks hbs (show isNumeric 0x7D = false by decide) []
    intro c hc
    refine h c ?_
    cases bs with
    | nil => cases hc
    | cons _ _ => exact hc
  have hend : skip bs = [] := by
    have h := skip_blanks hbs []
    rwa [List.append_nil] at h
  have hread := (readsSpaced hfl ((s ++ bs).length + 1)).value bs h hj (by rw [List.length_append]; omega) hfollows
  rw [parse_of_head hhead, skip_spaced hfl h, hread, Option.bind_some]
  exact if_pos (.inl hend)

/-- **The text of an object that is cut short is not read.** -/
theorem parse_take_spaced (hfl : fl.Lawful) {ms : List (Utf8Text × Json D)} {s : List UInt8}
    (h : Spaced fl (.obj ms) s) (hj : WellFormed (.obj ms)) {k : ℕ} (hk : k < s.length) :
      parse fl (s.take k) = none := by
  obtain ⟨rest, hs⟩ : ∃ rest, s = 0x7B :: rest := by
    cases h with
    | plain h =>
      cases ms with
      | nil => exact ⟨_, by rw [dump]⟩
      | cons _ _ => exact h.elim
    | obj _ _ => exact ⟨_, rfl⟩
  have hwhole := (readsSpaced hfl (s.length + 1)).value [] h hj (Nat.le_succ _) (by rintro b ⟨⟩)
  rw [List.append_nil] at hwhole
  exact parse_take_of_readValue hs hwhole hk

/-! ### Dumped texts -/

theorem blanks_nil : Blanks [] := fun _ hb => by cases hb

theorem blanks_singleton {b : UInt8} (hb : isBlank b = true) : Blanks [b] := fun c hc => by
  rw [List.mem_singleton.mp hc]
  exact hb

mutual

/-- **What is dumped is a text without blanks.** -/
theorem spaced_dump (fl : Floating D) : ∀ j : Json D, Spaced fl j (dump fl j)
  | .arr (j :: js) => by
    rw [dump]
    show Spaced fl _ (0x5B :: ([] ++ _))
    exact .arr blanks_nil (spaced_dumpElements fl (spaced_dump fl j) js)
  | .obj ((k, j) :: ms) => by
    rw [dump]
    show Spaced fl _ (0x7B :: ([] ++ _))
    exact .obj blanks_nil (spaced_dumpMembers fl k (spaced_dump fl j) ms)
  | .null | .bool _ | .int _ | .float _ | .str _ | .arr [] | .obj [] => .plain trivial

theorem spaced_dumpElements (fl : Floating D) {j : Json D} {s : List UInt8} (h : Spaced fl j s) :
    ∀ js : List (Json D), SpacedElements fl (j :: js) (s ++ dumpElements fl js)
  | [] => by
    rw [dumpElements]
    exact .last h blanks_nil
  | j' :: js => by
    rw [dumpElements]
    show SpacedElements fl _ (s ++ ([] ++ 0x2C :: ([] ++ _)))
    exact .more h blanks_nil blanks_nil (spaced_dumpElements fl (spaced_dump fl j') js)

theorem spaced_dumpMembers (fl : Floating D) (k : Utf8Text) {j : Json D} {s : List UInt8} (h : Spaced fl j s) :
    ∀ ms : List (Utf8Text × Json D),
      SpacedMembers fl ((k, j) :: ms) (dumpString k.val ++ 0x3A :: (s ++ dumpMembers fl ms))
  | [] => by
    rw [dumpMembers]
    exact .last blanks_nil blanks_nil h blanks_nil
  | (k', j') :: ms => by
    rw [dumpMembers]
    show SpacedMembers fl _ (_ ++ ([] ++ 0x3A :: ([] ++ (s ++ ([] ++ 0x2C :: ([] ++ _))))))
    exact .more blanks_nil blanks_nil h blanks_nil blanks_nil (spaced_dumpMembers fl k' (spaced_dump fl j') ms)

end

/-! ### Indented texts -/

def newLine (indent : ℕ) : List UInt8 := 0x0A :: List.replicate indent 0x20

theorem blanks_newLine (indent : ℕ) : Blanks (newLine indent) := by
  intro b hb
  rcases List.mem_cons.mp hb with rfl | hb
  · decide
  · rw [(List.mem_replicate.mp hb).2]
    decide

mutual

/-- The text of a value, each element and member on a line of its own, indented by `step`. -/
def dumpIndent (fl : Floating D) (step : ℕ) : ℕ → Json D → List UInt8
  | cur, .arr (j :: js) =>
    0x5B :: (newLine (cur + step) ++ (dumpIndent fl step (cur + step) j ++ indentElements fl step cur js))
  | cur, .obj ((k, j) :: ms) =>
    0x7B :: (newLine (cur + step) ++
      (dumpString k.val ++ 0x3A :: 0x20 :: (dumpIndent fl step (cur + step) j ++ indentMembers fl step cur ms)))
  | _, j => dump fl j

/-- The elements after the first. -/
def indentElements (fl : Floating D) (step : ℕ) : ℕ → List (Json D) → List UInt8
  | cur, [] => newLine cur ++ [0x5D]
  | cur, j :: js =>
    0x2C :: (newLine (cur + step) ++ (dumpIndent fl step (cur + step) j ++ indentElements fl step cur js))

/-- The members after the first. -/
def indentMembers (fl : Floating D) (step : ℕ) : ℕ → List (Utf8Text × Json D) → List UInt8
  | cur, [] => newLine cur ++ [0x7D]
  | cur, (k, j) :: ms =>
    0x2C :: (newLine (cur + step) ++
      (dumpString k.val ++ 0x3A :: 0x20 :: (dumpIndent fl step (cur + step) j ++ indentMembers fl step cur ms)))

end

theorem blanks_space : Blanks [0x20] := blanks_singleton (by decide)

mutual

/-- **An indented text is one with blanks.** -/
theorem spaced_dumpIndent (fl : Floating D) (step : ℕ) :
    ∀ (cur : ℕ) (j : Json D), Spaced fl j (dumpIndent fl step cur j)
  | cur, .arr (j :: js) => by
    rw [dumpIndent]
    exact .arr (blanks_newLine _) (spaced_indentElements fl step cur (spaced_dumpIndent fl step (cur + step) j) js)
  | cur, .obj ((k, j) :: ms) => by
    rw [dumpIndent]
    exact .obj (blanks_newLine _) (spaced_indentMembers fl step cur k (spaced_dumpIndent fl step (cur + step) j) ms)
  | _, .null | _, .bool _ | _, .int _ | _, .float _ | _, .str _ | _, .arr [] | _, .obj [] => by
    rw [dumpIndent]
    · exact .plain trivial
    all_goals simp

theorem spaced_indentElements (fl : Floating D) (step cur : ℕ) {j : Json D} {s : List UInt8} (h : Spaced fl j s) :
    ∀ js : List (Json D), SpacedElements fl (j :: js) (s ++ indentElements fl step cur js)
  | [] => by
    rw [indentElements]
    exact .last h (blanks_newLine cur)
  | j' :: js => by
    rw [indentElements]
    exact .more h blanks_nil (blanks_newLine _)
      (spaced_indentElements fl step cur (spaced_dumpIndent fl step (cur + step) j') js)

theorem spaced_indentMembers (fl : Floating D) (step cur : ℕ) (k : Utf8Text) {j : Json D} {s : List UInt8}
    (h : Spaced fl j s) : ∀ ms : List (Utf8Text × Json D),
      SpacedMembers fl ((k, j) :: ms) (dumpString k.val ++ 0x3A :: 0x20 :: (s ++ indentMembers fl step cur ms))
  | [] => by
    rw [indentMembers]
    exact .last blanks_nil blanks_space h (blanks_newLine cur)
  | (k', j') :: ms => by
    rw [indentMembers]
    exact .more blanks_nil blanks_space h blanks_nil (blanks_newLine _)
      (spaced_indentMembers fl step cur k' (spaced_dumpIndent fl step (cur + step) j') ms)

end

/-! ### The library -/

/-- A library that writes its numbers so. -/
def Floating.library (fl : Floating D) : Library D := ⟨parse fl, dump fl, fun indent => dumpIndent fl indent 0⟩

theorem Floating.Lawful.library (hfl : fl.Lawful) : fl.library.Lawful where
  parse_dump := fun {j} hj => by
    have h := parse_spaced hfl (spaced_dump fl j) hj blanks_nil
    rwa [List.append_nil] at h
  parse_dump_blank := fun hj _ hb => parse_spaced hfl (spaced_dump fl _) hj (blanks_singleton hb)
  parse_take_dump := fun hj _ hk => parse_take_spaced hfl (spaced_dump fl _) hj hk
  parse_nil := rfl
  wellFormed_of_parse := wellFormed_of_parse
  length_dump_pos := length_dump_pos hfl
  ge_of_mem_dump := fun j _ hc => ge_of_mem_dump hfl j hc
  length_dump_sublist := length_dump_sublist fl
  parse_dumpIndent := fun indent _ hj _ hbs => parse_spaced hfl (spaced_dumpIndent fl indent 0 _) hj hbs
  parse_take_dumpIndent := fun indent _ hj _ hk =>
    parse_take_spaced hfl (spaced_dumpIndent fl indent 0 _) hj hk

/-- The library for values whose numbers are integers. -/
def integers : Library Empty := Floating.library ⟨Empty.elim, fun _ => none⟩

theorem lawful_integers : integers.Lawful :=
  Floating.Lawful.library ⟨fun x => x.elim, fun x => x.elim, fun x => x.elim⟩

end Json
end Amind
