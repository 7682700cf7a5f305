/-
# Overwriting patches

A record of a log, read as a change of a map from keys to values: for each key
it keeps the value or writes a new one, whatever the old one was. A key that
some patch of a log writes ends with the same value from every start
(`applyAll_congr`), so a log replayed over its own result changes nothing
(`applyAll_applyAll`), and two starts end alike if and only if they agree where
no patch writes (`applyAll_eq_iff`). A patch that agrees with the later ones
where both write may be applied after them (`applyAll_insert`).
-/
import Mathlib.Data.List.Basic

namespace Amind

/-- For each key the value written there, if any. -/
def Patch (K V : Type) := K → Option V

namespace Patch

variable {K V : Type}

/-- The patch that writes nothing. -/
def keep : Patch K V := fun _ => none

/-- The map after the patch. -/
def apply (p : Patch K V) (m : K → V) : K → V := fun k => (p k).getD (m k)

/-- The map after the patches, first one first. -/
def applyAll (ps : List (Patch K V)) (m : K → V) : K → V := ps.foldl (fun m p => p.apply m) m

/-- Some patch writes the key. -/
def Touched (ps : List (Patch K V)) (k : K) : Prop := ∃ p ∈ ps, p k ≠ none

/-- The patches write no two values at one key. -/
def Independent (p q : Patch K V) : Prop := ∀ k v w, p k = some v → q k = some w → v = w

/-- What the patch writes is there already. -/
def Agrees (p : Patch K V) (m : K → V) : Prop := ∀ k v, p k = some v → m k = v

variable {p q : Patch K V} {ps qs : List (Patch K V)} {m m' : K → V} {k : K}

@[simp] theorem keep_apply (m : K → V) : keep.apply m = m := rfl

theorem apply_of_none (h : p k = none) : p.apply m k = m k := by simp [apply, h]

theorem apply_of_some {v : V} (h : p k = some v) : p.apply m k = v := by simp [apply, h]

theorem Agrees.apply_eq (h : p.Agrees m) : p.apply m = m := by
  funext k
  cases hk : p k with
  | none => exact apply_of_none hk
  | some v => rw [apply_of_some hk, h k v hk]

theorem applyAll_cons (p : Patch K V) (ps : List (Patch K V)) (m : K → V) :
    applyAll (p :: ps) m = applyAll ps (p.apply m) := rfl

theorem applyAll_append (ps qs : List (Patch K V)) (m : K → V) :
    applyAll (ps ++ qs) m = applyAll qs (applyAll ps m) := by
  simp [applyAll]

theorem applyAll_concat (ps : List (Patch K V)) (p : Patch K V) (m : K → V) :
    applyAll (ps ++ [p]) m = p.apply (applyAll ps m) := applyAll_append ps [p] m

theorem touched_cons : Touched (p :: ps) k ↔ p k ≠ none ∨ Touched ps k := by simp [Touched]

/-- A key that no patch writes keeps its value. -/
theorem applyAll_of_not_touched : ∀ {ps : List (Patch K V)} {m : K → V}, ¬ Touched ps k → applyAll ps m k = m k
  | [], _, _ => rfl
  | p :: ps, m, h => by
    rw [touched_cons] at h
    push Not at h
    rw [applyAll_cons, applyAll_of_not_touched h.2, apply_of_none h.1]

/-- A key that some patch writes has the same value from every start. -/
theorem applyAll_congr : ∀ {ps : List (Patch K V)} {m m' : K → V}, Touched ps k ∨ m k = m' k →
    applyAll ps m k = applyAll ps m' k
  | [], _, _, h => by
    rcases h with ⟨p, hp, _⟩ | h
    · exact absurd hp List.not_mem_nil
    · exact h
  | p :: ps, m, m', h => by
    rw [applyAll_cons, applyAll_cons]
    apply applyAll_congr
    cases hk : p k with
    | some v => exact Or.inr (by rw [apply_of_some hk, apply_of_some hk])
    | none =>
      rw [touched_cons, apply_of_none hk, apply_of_none hk] at *
      exact h.imp_left fun h => h.resolve_left (absurd hk)

/-- A key that some patch writes has what one of them writes. -/
theorem exists_applyAll_of_touched : ∀ {ps : List (Patch K V)} {m : K → V}, Touched ps k →
    ∃ p ∈ ps, p k = some (applyAll ps m k)
  | [], _, ⟨_, hp, _⟩ => absurd hp List.not_mem_nil
  | p :: ps, m, h => by
    rw [applyAll_cons]
    by_cases hrest : Touched ps k
    · obtain ⟨q, hq, hk⟩ := exists_applyAll_of_touched (m := p.apply m) hrest
      exact ⟨q, List.mem_cons_of_mem _ hq, hk⟩
    · have hp : p k ≠ none := (touched_cons.mp h).resolve_right hrest
      obtain ⟨v, hv⟩ := Option.ne_none_iff_exists'.mp hp
      exact ⟨p, List.mem_cons_self, by rw [applyAll_of_not_touched hrest, apply_of_some hv, hv]⟩

/-- Two starts end alike if and only if they agree where no patch writes. -/
theorem applyAll_eq_iff : applyAll ps m = applyAll ps m' ↔ ∀ k, Touched ps k ∨ m k = m' k := by
  refine ⟨fun h k => ?_, fun h => funext fun k => applyAll_congr (h k)⟩
  by_cases ht : Touched ps k
  · exact Or.inl ht
  · have hk := congrFun h k
    rw [applyAll_of_not_touched ht, applyAll_of_not_touched ht] at hk
    exact Or.inr hk

/-- The patches applied once more change nothing. -/
theorem applyAll_applyAll (ps : List (Patch K V)) (m : K → V) : applyAll ps (applyAll ps m) = applyAll ps m := by
  rw [applyAll_eq_iff]
  intro k
  by_cases ht : Touched ps k
  · exact Or.inl ht
  · exact Or.inr (applyAll_of_not_touched ht)

/-- Patches that write nothing but `m`, and write wherever the start is not
`m`, lead to `m`. -/
theorem applyAll_of_agrees (ha : ∀ p ∈ ps, p.Agrees m) (hk : ∀ k, Touched ps k ∨ m' k = m k) : applyAll ps m' = m := by
  have hsame : ∀ {qs : List (Patch K V)}, (∀ p ∈ qs, p.Agrees m) → applyAll qs m = m := by
    intro qs hqs
    induction qs with
    | nil => rfl
    | cons q qs ih =>
      rw [applyAll_cons, (hqs q List.mem_cons_self).apply_eq]
      exact ih fun p hp => hqs p (List.mem_cons_of_mem _ hp)
  calc applyAll ps m' = applyAll ps m := applyAll_eq_iff.mpr hk
    _ = m := hsame ha

/-- Two independent patches commute. -/
theorem Independent.apply_comm (h : Independent p q) (m : K → V) : p.apply (q.apply m) = q.apply (p.apply m) := by
  funext k
  cases hp : p k with
  | none =>
    rw [apply_of_none hp]
    cases hq : q k with
    | none => rw [apply_of_none hq, apply_of_none hq, apply_of_none hp]
    | some w => rw [apply_of_some hq, apply_of_some hq]
  | some v =>
    rw [apply_of_some hp]
    cases hq : q k with
    | none => rw [apply_of_none hq, apply_of_some hp]
    | some w => rw [apply_of_some hq, h k v w hp hq]

/-- A patch may be applied last if it is independent of those after it. -/
theorem applyAll_insert : ∀ {qs : List (Patch K V)}, (∀ q ∈ qs, Independent p q) → ∀ m : K → V,
    applyAll qs (p.apply m) = p.apply (applyAll qs m)
  | [], _, _ => rfl
  | q :: qs, h, m => by
    have hq : Independent p q := h q List.mem_cons_self
    rw [applyAll_cons, applyAll_cons, ← hq.apply_comm]
    exact applyAll_insert (fun r hr => h r (List.mem_cons_of_mem _ hr)) _

end Patch
end Amind
