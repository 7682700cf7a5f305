/-
# Links to parents

Each of a store's keys may have a parent and a count; `root` is the parent of those
that have none. Links are `Counted` if each parent that is there was replaced by
its child and counts one less. Walks along such links are made of
replacements, count down, and come to no key twice (`Walk.isChain`, `Walk.nodup`).

Putting a link in keeps this if the key is nobody's parent, and its own parent
is not there, or is one that it replaces (`Counted.put`).
-/
import Mathlib.Data.List.Chain
import Mathlib.Logic.Function.Basic

namespace Amind
namespace ParentLinks

variable {K α : Type} {root : K} {link : K → Option (K × ℕ)} {replaced replaced' : List (K × K)}

/-- Whatever has a parent that is there replaced it, and counts one more. -/
def Counted (root : K) (link : K → Option (K × ℕ)) (replaced : List (K × K)) : Prop :=
  ∀ k parent n, link k = some (parent, n) → parent ≠ root →
    ∀ grandparent m, link parent = some (grandparent, m) → (parent, k) ∈ replaced ∧ n = m + 1

/-- No other key has this one for its parent. -/
def Childless (root : K) (link : K → Option (K × ℕ)) (k : K) : Prop :=
  k ≠ root → ∀ child parent n, link child = some (parent, n) → child ≠ k → parent ≠ k

theorem counted_empty : Counted root (fun _ => none) replaced := by
  intro k parent n h
  cases h

theorem Counted.mono (h : Counted root link replaced) (hsub : replaced ⊆ replaced') : Counted root link replaced' := by
  intro k parent n hk hp g m hg
  obtain ⟨hmem, hcount⟩ := h k parent n hk hp g m hg
  exact ⟨hsub hmem, hcount⟩

variable [DecidableEq K]

theorem Counted.put (h : Counted root link replaced) {k parent : K} {n : ℕ} (hfree : Childless root link k)
    (hparent : parent ≠ root → parent ≠ k ∧
      ∀ grandparent m, link parent = some (grandparent, m) → (parent, k) ∈ replaced ∧ n = m + 1) :
    Counted root (Function.update link k (some (parent, n))) replaced := by
  intro k' parent' n' hk' hp' g m hg
  by_cases he : k' = k
  · subst he
    rw [Function.update_self] at hk'
    obtain ⟨rfl, rfl⟩ := Prod.mk.inj (Option.some.inj hk')
    obtain ⟨hne, hcounts⟩ := hparent hp'
    rw [Function.update_of_ne hne] at hg
    exact hcounts g m hg
  · rw [Function.update_of_ne he] at hk'
    have hne : parent' ≠ k := by
      rintro rfl
      exact hfree hp' k' _ n' hk' he rfl
    rw [Function.update_of_ne hne] at hg
    exact h k' parent' n' hk' hp' g m hg

omit [DecidableEq K]

/-! ### Walks -/

section Walks

variable {key parent : α → K} {count : α → ℕ} {k : K} {rs : List α}

/-- From a key, to its parent, and so on. The walk may stop anywhere. -/
inductive Walk (root : K) (link : K → Option (K × ℕ)) (key parent : α → K) (count : α → ℕ) : K → List α → Prop
  | stop (k : K) : Walk root link key parent count k []
  | step {k : K} {r : α} {rs : List α} (hk : k ≠ root) (hkey : key r = k) (hlink : link k = some (parent r, count r))
    (h : Walk root link key parent count (parent r) rs) : Walk root link key parent count k (r :: rs)

/-- **A walk** is made of replacements, and counts down. -/
theorem Walk.isChain (hc : Counted root link replaced) (h : Walk root link key parent count k rs) :
    rs.IsChain fun a b => (key b, key a) ∈ replaced ∧ count a = count b + 1 := by
  induction h with
  | stop => exact .nil
  | step hk hkey hlink hrest ih =>
    cases hrest with
    | stop => exact .singleton _
    | step hk' hkey' hlink' hrest' =>
      refine .cons_cons ?_ ih
      have hcounts := hc _ _ _ hlink hk' _ _ hlink'
      rwa [hkey, hkey']

/-- What is on a walk has the link of its key. -/
theorem Walk.link_of_mem (h : Walk root link key parent count k rs) {r : α} (hr : r ∈ rs) :
    link (key r) = some (parent r, count r) := by
  induction h with
  | stop => cases hr
  | step hk hkey hlink _ ih =>
    rcases List.mem_cons.mp hr with rfl | hr
    · rw [hkey, hlink]
    · exact ih hr

/-- **A walk comes to no key twice.** -/
theorem Walk.nodup (hc : Counted root link replaced) (h : Walk root link key parent count k rs) :
    (rs.map key).Nodup := by
  have hdown : rs.IsChain fun a b => count b < count a :=
    (h.isChain hc).imp fun a b hab => by omega
  have htrans : Trans (fun a b : α => count b < count a) (fun a b => count b < count a) fun a b => count b < count a :=
    ⟨fun hab hbc => Nat.lt_trans hbc hab⟩
  rw [List.Nodup, List.pairwise_map]
  refine (List.isChain_iff_pairwise.mp hdown).imp_of_mem fun {a b} ha hb hlt hsame => ?_
  have hlink := (h.link_of_mem ha).symm.trans (hsame ▸ h.link_of_mem hb)
  have hcount := (Prod.mk.inj (Option.some.inj hlink)).2
  omega

end Walks

end ParentLinks
end Amind
