/-
# Computations that may leave their memory

A computation ends with a value, with an exception, or with what the language
leaves undefined: a read outside of the bytes there are, or a remainder by
zero. It is `Safe` if it does not end with the last. Every read is preceded by
`within`, which says where it is undefined.

`safe_bind` and `safe_walk` say when a sequence and a loop are safe: if each of
the steps that are reached is.
-/
import Mathlib.Data.List.Basic

namespace Amind
namespace Checked

inductive Fault (E : Type)
  | thrown (e : E)
  | outside
  | divByZero
  deriving DecidableEq

end Checked

abbrev Checked (E α : Type) := Except (Checked.Fault E) α

namespace Checked

variable {E α β : Type}

/-- A computation that stays inside. -/
def ofExcept : Except E α → Checked E α
  | .ok a => .ok a
  | .error e => .error (.thrown e)

/-- `n` bytes from `offset` on are among the `length` there are. -/
def within (length offset n : ℕ) : Checked E Unit := if offset + n ≤ length then .ok () else .error .outside

def Safe : Checked E α → Prop
  | .ok _ => True
  | .error (.thrown _) => True
  | .error .outside => False
  | .error .divByZero => False

instance decidableSafe : ∀ x : Checked E α, Decidable (Safe x)
  | .ok _ => .isTrue trivial
  | .error (.thrown _) => .isTrue trivial
  | .error .outside => .isFalse id
  | .error .divByZero => .isFalse id

@[simp] theorem safe_ok (a : α) : Safe (.ok a : Checked E α) := trivial

@[simp] theorem safe_thrown (e : E) : Safe (.error (.thrown e) : Checked E α) := trivial

@[simp] theorem not_safe_outside : ¬ Safe (.error .outside : Checked E α) := id

@[simp] theorem not_safe_divByZero : ¬ Safe (.error .divByZero : Checked E α) := id

theorem safe_ofExcept : ∀ x : Except E α, Safe (ofExcept x)
  | .ok _ => trivial
  | .error _ => trivial

theorem within_of_le {length offset n : ℕ} (h : offset + n ≤ length) :
    (within length offset n : Checked E Unit) = .ok () :=
  if_pos h

theorem within_of_lt {length offset n : ℕ} (h : length < offset + n) :
    (within length offset n : Checked E Unit) = .error .outside :=
  if_neg (Nat.not_le.mpr h)

theorem safe_within_iff {length offset n : ℕ} :
    Safe (within length offset n : Checked E Unit) ↔ offset + n ≤ length := by
  unfold within
  split
  · exact iff_of_true trivial ‹_›
  · exact iff_of_false id ‹_›

theorem ok_bind (a : α) (f : α → Checked E β) : ((.ok a : Checked E α) >>= f) = f a := rfl

theorem error_bind (e : Fault E) (f : α → Checked E β) : ((.error e : Checked E α) >>= f) = .error e := rfl

/-- A sequence is safe if its steps are. -/
theorem safe_bind {x : Checked E α} {f : α → Checked E β} : Safe (x >>= f) ↔ Safe x ∧ ∀ a, x = .ok a → Safe (f a) := by
  cases x with
  | ok a =>
    rw [ok_bind]
    exact ⟨fun h => ⟨trivial, fun b hb => Except.ok.inj hb ▸ h⟩, fun h => h.2 a rfl⟩
  | error e =>
    rw [error_bind]
    refine ⟨fun h => ⟨?_, fun a ha => by cases ha⟩, fun h => ?_⟩
    · cases e with
      | thrown e => trivial
      | outside => exact h
      | divByZero => exact h
    · cases e with
      | thrown e => trivial
      | outside => exact h.1
      | divByZero => exact h.1

/-- What is made of a value is safe if the value is. -/
theorem safe_bind_ok {x : Checked E α} {f : α → β} : Safe (x >>= fun a => .ok (f a)) ↔ Safe x := by
  rw [safe_bind]
  exact and_iff_left fun _ _ => trivial

/-- Steps that stay inside. -/
theorem mapM_ok {f : α → Checked E β} {g : α → β} : ∀ l : List α, (∀ a ∈ l, f a = .ok (g a)) → l.mapM f = .ok (l.map g)
  | [], _ => rfl
  | a :: l, h => by
    rw [List.mapM_cons, h a List.mem_cons_self, ok_bind, mapM_ok l fun b hb => h b (List.mem_cons_of_mem _ hb), ok_bind]
    rfl

/-- Steps that each come to a value. -/
theorem mapM_returns {f : α → Checked E β} : ∀ l : List α, (∀ a ∈ l, ∃ b, f a = .ok b) → ∃ bs, l.mapM f = .ok bs
  | [], _ => ⟨[], rfl⟩
  | a :: l, h => by
    obtain ⟨b, hb⟩ := h a List.mem_cons_self
    obtain ⟨bs, hbs⟩ := mapM_returns l fun c hc => h c (List.mem_cons_of_mem _ hc)
    exact ⟨b :: bs, by rw [List.mapM_cons, hb, ok_bind, hbs, ok_bind]; rfl⟩

/-! ### Loops -/

/-- A loop over a list. The body says what it puts out and whether to go on. -/
def walk (body : α → Checked E (List β × Bool)) : List α → Checked E (List β × Bool)
  | [] => .ok ([], true)
  | a :: as => do
    let p ← body a
    if p.2 then do
      let q ← walk body as
      .ok (p.1 ++ q.1, q.2)
    else .ok (p.1, false)

variable {body : α → Checked E (List β × Bool)}

theorem walk_cons (a : α) (l : List α) : walk body (a :: l) = (do
    let p ← body a
    if p.2 then do
      let q ← walk body l
      .ok (p.1 ++ q.1, q.2)
    else .ok (p.1, false)) := rfl

/-- The body goes on. -/
def GoesOn (body : α → Checked E (List β × Bool)) (a : α) : Prop := ∃ out, body a = .ok (out, true)

/-- The loop reaches what is at `i`: it goes on before. -/
def Reaches (body : α → Checked E (List β × Bool)) (l : List α) (i : ℕ) : Prop :=
  ∀ k < i, ∀ a, l[k]? = some a → GoesOn body a

theorem reaches_zero (l : List α) : Reaches body l 0 := fun _ hk => absurd hk (Nat.not_lt_zero _)

theorem reaches_succ {a : α} {l : List α} {i : ℕ} :
    Reaches body (a :: l) (i + 1) ↔ GoesOn body a ∧ Reaches body l i := by
  constructor
  · intro h
    exact ⟨h 0 (Nat.succ_pos i) a rfl, fun k hk b hb => h (k + 1) (Nat.succ_lt_succ hk) b hb⟩
  · rintro ⟨ha, h⟩ k hk b hb
    cases k with
    | zero => exact Option.some.inj hb ▸ ha
    | succ k => exact h k (Nat.lt_of_succ_lt_succ hk) b hb

/-- **A loop is safe if its body is, wherever it is reached.** -/
theorem safe_walk : ∀ l : List α, Safe (walk body l) ↔ ∀ i a, l[i]? = some a → Reaches body l i → Safe (body a)
  | [] => iff_of_true trivial fun i a ha => by simp at ha
  | a :: l => by
    rw [walk_cons, safe_bind]
    have hrest : (∀ p, body a = .ok p → Safe (if p.2 then do let q ← walk body l; Except.ok (p.1 ++ q.1, q.2)
        else Except.ok (p.1, false))) ↔ (GoesOn body a → Safe (walk body l)) := by
      constructor
      · rintro h ⟨out, hout⟩
        have hnext := h _ hout
        rw [if_pos rfl, safe_bind] at hnext
        exact hnext.1
      · rintro h ⟨out, on⟩ hp
        cases on with
        | true =>
          rw [if_pos rfl, safe_bind]
          exact ⟨h ⟨out, hp⟩, fun _ _ => trivial⟩
        | false => exact trivial
    rw [hrest, safe_walk l]
    constructor
    · rintro ⟨ha, h⟩ i b hb hreach
      cases i with
      | zero => exact Option.some.inj hb ▸ ha
      | succ i =>
        obtain ⟨hon, hreach⟩ := reaches_succ.mp hreach
        exact h hon i b hb hreach
    · intro h
      exact ⟨h 0 a rfl (reaches_zero _), fun hon i b hb hreach => h (i + 1) b hb (reaches_succ.mpr ⟨hon, hreach⟩)⟩

/-- Of a loop is known where its body is safe, and where it goes on if it is. -/
theorem safe_walk_iff {l : List α} {fits passes : α → Prop} (hsafe : ∀ a ∈ l, Safe (body a) ↔ fits a)
    (hon : ∀ a ∈ l, fits a → (GoesOn body a ↔ passes a)) :
    Safe (walk body l) ↔ ∀ (i : ℕ) (a : α), l[i]? = some a → (∀ k < i, ∀ b, l[k]? = some b → passes b) → fits a := by
  rw [safe_walk]
  constructor
  · intro h i a ha hpass
    -- what is passed before is reached and so safe, one after the other
    have hreach : ∀ j ≤ i, Reaches body l j := by
      intro j
      induction j with
      | zero => exact fun _ => reaches_zero l
      | succ j ih =>
        intro hj k hk b hb
        rcases Nat.lt_succ_iff_lt_or_eq.mp hk with hk | rfl
        · exact ih (Nat.le_of_succ_le hj) k hk b hb
        · have hmem := List.mem_of_getElem? hb
          have hfits := (hsafe b hmem).mp (h k b hb (ih (Nat.le_of_succ_le hj)))
          exact (hon b hmem hfits).mpr (hpass k hj b hb)
    exact (hsafe a (List.mem_of_getElem? ha)).mp (h i a ha (hreach i (Nat.le_refl i)))
  · intro h i a ha hreach
    refine (hsafe a (List.mem_of_getElem? ha)).mpr (h i a ha fun k hk b hb => ?_)
    have hmem := List.mem_of_getElem? hb
    have hgoes := hreach k hk b hb
    have hfits : fits b := by
      obtain ⟨out, hout⟩ := hgoes
      refine (hsafe b hmem).mp ?_
      rw [hout]
      trivial
    exact (hon b hmem hfits).mp hgoes

/-- A loop goes on at the end if and only if it does at each step. -/
theorem goesOn_walk_iff : ∀ l : List α, (∃ out, walk body l = .ok (out, true)) ↔ ∀ a ∈ l, GoesOn body a
  | [] => iff_of_true ⟨[], rfl⟩ fun _ h => absurd h List.not_mem_nil
  | a :: l => by
    rw [List.forall_mem_cons, ← goesOn_walk_iff l, walk_cons]
    constructor
    · rintro ⟨out, h⟩
      cases ha : body a with
      | error e =>
        rw [ha, error_bind] at h
        cases h
      | ok p =>
        obtain ⟨first, on⟩ := p
        rw [ha, ok_bind] at h
        cases on with
        | false =>
          have hfalse := congrArg Prod.snd (Except.ok.inj h)
          cases hfalse
        | true =>
          rw [if_pos rfl] at h
          cases hrest : walk body l with
          | error e =>
            rw [hrest, error_bind] at h
            cases h
          | ok q =>
            rw [hrest, ok_bind] at h
            have hq : q.2 = true := congrArg Prod.snd (Except.ok.inj h)
            exact ⟨⟨first, ha⟩, q.1, hq ▸ rfl⟩
    · rintro ⟨⟨first, ha⟩, more, hmore⟩
      refine ⟨first ++ more, ?_⟩
      rw [ha, ok_bind, if_pos rfl, hmore]
      rfl

end Checked
end Amind
