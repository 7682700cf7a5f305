/-
# Canonical paths

A canonical path is a list of names, and its text has a slash before each of them.
One path is below another if its names go on where those of the other end. The
texts say a little less (`text_prefix_iff`): a path whose text starts with that of
another is below it, or is one beside it with a name that goes on where the last
name of the other ends, as `/srv/web2` does for `/srv/web`.

`normal` is the path a text names where there are no links: a dot stays, and two
go back.
-/
import Amind.Lib.Lines

namespace Amind
namespace CanonicalPath

open Lines

def slash : UInt8 := 0x2F

structure IsName (name : List UInt8) : Prop where
  ne_nil : name ≠ []
  noSlash : slash ∉ name
  ne_dot : name ≠ [0x2E]
  ne_dots : name ≠ [0x2E, 0x2E]

@[ext]
structure Path where
  names : List (List UInt8)
  valid : ∀ name ∈ names, IsName name

/-- A slash and a name, for each of them. -/
def slashed (names : List (List UInt8)) : List UInt8 := names.flatMap (slash :: ·)

namespace Path

def text (p : Path) : List UInt8 := if p.names = [] then [slash] else slashed p.names

/-- A path is below the paths that its names start with. -/
instance : LE Path := ⟨fun r p => r.names <+: p.names⟩

instance (r p : Path) : Decidable (r ≤ p) := inferInstanceAs (Decidable (r.names <+: p.names))

/-- The path has a name that is longer than the last one of `r` where this ends. -/
def Extends (r p : Path) : Prop :=
  ∃ front last more rest, r.names = front ++ [last] ∧ p.names = front ++ (last ++ more) :: rest ∧ more ≠ []

end Path

/-! ### Texts -/

theorem slashed_cons (name : List UInt8) (names : List (List UInt8)) :
    slashed (name :: names) = slash :: (name ++ slashed names) := rfl

/-- A name that a text of names starts with is the start of the first one. -/
theorem prefix_of_prefix_slashed {m n : List UInt8} (hm : slash ∉ m) {names : List (List UInt8)}
    (h : m <+: n ++ slashed names) : m <+: n := by
  rcases Nat.le_total m.length n.length with hlen | hlen
  · exact List.prefix_of_prefix_length_le h (List.prefix_append _ _) hlen
  · obtain ⟨rest, rfl⟩ := List.prefix_of_prefix_length_le (List.prefix_append _ _) h hlen
    cases names with
    | nil => simpa [slashed] using h
    | cons name names =>
      rw [List.prefix_append_right_inj, slashed_cons] at h
      cases rest with
      | nil => simp
      | cons b rest =>
        obtain ⟨rfl, -⟩ := List.cons_prefix_cons.mp h
        exact absurd (List.mem_append_right n List.mem_cons_self) hm

/-- Whatever stands behind a name, it ends at the first slash. -/
theorem append_slash_inj {m n : List UInt8} (hm : slash ∉ m) (hn : slash ∉ n) {s t : List UInt8}
    (h : m ++ slash :: s <+: n ++ slash :: t) : m = n ∧ s <+: t := by
  induction m generalizing n with
  | nil =>
    cases n with
    | nil => exact ⟨rfl, (List.cons_prefix_cons.mp h).2⟩
    | cons y n =>
      obtain ⟨rfl, -⟩ := List.cons_prefix_cons.mp h
      exact absurd List.mem_cons_self hn
  | cons x m ih =>
    cases n with
    | nil =>
      obtain ⟨rfl, -⟩ := List.cons_prefix_cons.mp h
      exact absurd List.mem_cons_self hm
    | cons y n =>
      obtain ⟨rfl, hrest⟩ := List.cons_prefix_cons.mp h
      obtain ⟨rfl, hs⟩ := ih (List.not_mem_of_not_mem_cons hm) (List.not_mem_of_not_mem_cons hn) hrest
      exact ⟨rfl, hs⟩

theorem slashed_append (a b : List (List UInt8)) : slashed (a ++ b) = slashed a ++ slashed b := List.flatMap_append

/-- The text goes on with more names, or with more of the last name. -/
theorem slashed_prefix {a b : List (List UInt8)} (h : a <+: b ∨
    ∃ front last more rest, a = front ++ [last] ∧ b = front ++ (last ++ more) :: rest ∧ more ≠ []) :
    slashed a <+: slashed b := by
  rcases h with ⟨c, rfl⟩ | ⟨front, last, more, rest, rfl, rfl, -⟩
  · rw [slashed_append]
    exact List.prefix_append _ _
  · rw [slashed_append, slashed_append, List.prefix_append_right_inj]
    exact ⟨more ++ slashed rest, by simp [slashed]⟩

theorem slashed_prefix_iff : ∀ {a b : List (List UInt8)}, (∀ n ∈ a, slash ∉ n) → (∀ n ∈ b, slash ∉ n) →
    (slashed a <+: slashed b ↔ a <+: b ∨
      ∃ front last more rest, a = front ++ [last] ∧ b = front ++ (last ++ more) :: rest ∧ more ≠ [])
  | [], b, _, _ => ⟨fun _ => .inl (List.nil_prefix), slashed_prefix⟩
  | m :: a, [], _, _ => by
    refine ⟨fun h => ?_, slashed_prefix⟩
    cases List.prefix_nil.mp h
  | [m], n :: b, ha, _ => by
    refine ⟨fun h => ?_, slashed_prefix⟩
    rw [slashed_cons, slashed_cons, List.cons_prefix_cons, show slashed [] = [] from rfl, List.append_nil] at h
    obtain ⟨more, rfl⟩ := prefix_of_prefix_slashed (ha m List.mem_cons_self) h.2
    by_cases hmore : more = []
    · left
      rw [hmore, List.append_nil]
      exact ⟨b, rfl⟩
    · exact .inr ⟨[], m, more, b, rfl, rfl, hmore⟩
  | m :: m' :: a, [n], ha, hb => by
    refine ⟨fun h => ?_, slashed_prefix⟩
    rw [slashed_cons, slashed_cons, slashed_cons, show slashed [] = [] from rfl, List.append_nil] at h
    have hmem : slash ∈ n := (List.cons_prefix_cons.mp h).2.subset (by simp)
    exact absurd hmem (hb n List.mem_cons_self)
  | m :: m' :: a, n :: n' :: b, ha, hb => by
    refine ⟨fun h => ?_, slashed_prefix⟩
    rw [slashed_cons m, slashed_cons n, List.cons_prefix_cons, slashed_cons, slashed_cons] at h
    obtain ⟨rfl, htail⟩ := append_slash_inj (ha m List.mem_cons_self) (hb n List.mem_cons_self) h.2
    have hrest : slashed (m' :: a) <+: slashed (n' :: b) := List.cons_prefix_cons.mpr ⟨rfl, htail⟩
    have ih := slashed_prefix_iff (a := m' :: a) (b := n' :: b) (fun x hx => ha x (List.mem_cons_of_mem _ hx))
      fun x hx => hb x (List.mem_cons_of_mem _ hx)
    rcases ih.mp hrest with hbelow | ⟨front, last, more, rest, hfront, hrest, hmore⟩
    · exact .inl (List.cons_prefix_cons.mpr ⟨rfl, hbelow⟩)
    · exact .inr ⟨m :: front, last, more, rest, by rw [hfront]; rfl, by rw [hrest]; rfl, hmore⟩

theorem slashed_ne_slash {names : List (List UInt8)} (h : ∀ n ∈ names, n ≠ []) : slashed names ≠ [slash] := by
  cases names with
  | nil => exact (List.cons_ne_nil _ _).symm
  | cons n names =>
    intro heq
    exact h n List.mem_cons_self (List.append_eq_nil_iff.mp (List.cons.inj heq).2).1

namespace Path

variable {r p : Path}

theorem noSlash (p : Path) : ∀ n ∈ p.names, slash ∉ n := fun n hn => (p.valid n hn).noSlash

/-- **The texts of canonical paths.** A path whose text starts with that of another
is below it, or has a longer name where the other ends. -/
theorem text_prefix_iff : r.text <+: p.text ↔ r ≤ p ∨ r.Extends p := by
  have hiff := slashed_prefix_iff r.noSlash p.noSlash
  unfold text
  by_cases hr : r.names = []
  · -- every path is below the one without names
    have hle : r ≤ p := by
      change r.names <+: p.names
      rw [hr]
      exact List.nil_prefix
    rw [if_pos hr]
    refine ⟨fun _ => .inl hle, fun _ => ?_⟩
    cases hp : p.names with
    | nil => exact List.prefix_rfl
    | cons n names => exact List.cons_prefix_cons.mpr ⟨rfl, List.nil_prefix⟩
  · rw [if_neg hr]
    by_cases hp : p.names = []
    · rw [if_pos hp]
      constructor
      · intro h
        rcases List.prefix_cons_iff.mp h with h | ⟨t, h, ht⟩
        · cases hnames : r.names with
          | nil => exact absurd hnames hr
          | cons n names =>
            rw [hnames] at h
            cases h
        · rw [List.prefix_nil.mp ht] at h
          exact absurd h (slashed_ne_slash fun n hn => (r.valid n hn).ne_nil)
      · rintro (h | ⟨front, last, more, rest, -, h, -⟩)
        · change r.names <+: p.names at h
          rw [hp, List.prefix_nil] at h
          exact absurd h hr
        · rw [hp] at h
          exact absurd h.symm (by simp)
    · rw [if_neg hp]
      exact hiff

end Path

/-! ### Paths without links -/

/-- Where a name leads. -/
def step (names : List (List UInt8)) (name : List UInt8) : List (List UInt8) :=
  if name = [] ∨ name = [0x2E] then names
  else if name = [0x2E, 0x2E] then names.dropLast
  else names ++ [name]

theorem step_valid {names : List (List UInt8)} {name : List UInt8} (h : ∀ n ∈ names, IsName n) (hs : slash ∉ name) :
    ∀ n ∈ step names name, IsName n := by
  intro n hn
  unfold step at hn
  split at hn
  · exact h n hn
  · next hstay =>
    split at hn
    · exact h n (List.dropLast_subset _ hn)
    · next hback =>
      rcases List.mem_append.mp hn with hn | hn
      · exact h n hn
      · rw [List.mem_singleton.mp hn]
        exact ⟨fun h => hstay (.inl h), hs, fun h => hstay (.inr h), hback⟩

theorem foldl_step_valid {parts : List (List UInt8)} : ∀ {names : List (List UInt8)}, (∀ n ∈ names, IsName n) →
    (∀ n ∈ parts, slash ∉ n) → ∀ n ∈ parts.foldl step names, IsName n := by
  induction parts with
  | nil => exact fun h _ => h
  | cons part parts ih =>
    intro names h hs
    exact ih (step_valid h (hs part List.mem_cons_self)) fun n hn => hs n (List.mem_cons_of_mem _ hn)

/-- The path of a text where there are no links. -/
def normal (t : List UInt8) : Path where
  names := (t.splitOn slash).foldl step []
  valid := foldl_step_valid (fun _ h => absurd h List.not_mem_nil) fun _ => not_mem_of_mem_splitOn

/-- Names are where they lead. -/
theorem foldl_step_names : ∀ {parts names : List (List UInt8)}, (∀ n ∈ parts, IsName n) →
    parts.foldl step names = names ++ parts
  | [], names, _ => (List.append_nil names).symm
  | part :: parts, names, h => by
    have hpart := h part List.mem_cons_self
    have hstep : step names part = names ++ [part] := by
      rw [step, if_neg (not_or.mpr ⟨hpart.ne_nil, hpart.ne_dot⟩), if_neg hpart.ne_dots]
    rw [List.foldl_cons, hstep, foldl_step_names fun n hn => h n (List.mem_cons_of_mem _ hn), List.append_assoc,
      List.singleton_append]

theorem splitOn_slashed : ∀ {m : List UInt8} {names : List (List UInt8)}, slash ∉ m → (∀ n ∈ names, slash ∉ n) →
    (m ++ slashed names).splitOn slash = m :: names
  | m, [], hm, _ => by rw [show slashed [] = [] from rfl, List.append_nil, List.splitOn_eq_singleton hm]
  | m, n :: names, hm, h => by
    have ih := splitOn_slashed (h n List.mem_cons_self) fun x hx => h x (List.mem_cons_of_mem _ hx)
    rw [slashed_cons, List.splitOn_append_cons_self, List.splitOn_eq_singleton hm, ih, List.singleton_append]

/-- A canonical path names itself. -/
theorem normal_text (p : Path) : normal p.text = p := by
  refine Path.ext ?_
  change (p.text.splitOn slash).foldl step [] = p.names
  unfold Path.text
  split
  · next hnil =>
    rw [hnil]
    decide
  · have hsplit : (slashed p.names).splitOn slash = [] :: p.names :=
      splitOn_slashed (m := []) List.not_mem_nil p.noSlash
    rw [hsplit, List.foldl_cons, foldl_step_names p.valid]
    rfl

end CanonicalPath
end Amind
