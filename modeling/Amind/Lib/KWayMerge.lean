/-
# Merging sorted runs

`merge keep cs` merges the runs `cs` into one: at every turn the least key
among the fronts of the runs is taken, from the run of lowest index when
several have it (`popTop`, what a min-heap of (key, index) gives); a key
already seen is skipped, and so is a value `keep` refuses.

The merge ascends (`merge_ascending`) and holds for each key what the lowest
run that has the key holds, if `keep` lets it through (`lookup_merge`).
-/
import Mathlib.Algebra.Ring.Nat
import Amind.Lib.Keyed

namespace Amind
namespace Keyed

variable {K V : Type} [LinearOrder K]

/-- The least front, lowest index first, and the runs after it is taken. -/
def popTop : List (List (K × V)) → Option ((K × V) × List (List (K × V)))
  | [] => none
  | [] :: cs => (popTop cs).map fun p => (p.1, [] :: p.2)
  | (e :: c) :: cs =>
    match popTop cs with
    | none => some (e, c :: cs)
    | some (e', cs') => if e.1 ≤ e'.1 then some (e, c :: cs) else some (e', (e :: c) :: cs')

/-- The merge loop: `prev` is the key taken last. -/
def mergeLoop (keep : V → Bool) : ℕ → List (List (K × V)) → Option K → List (K × V)
  | 0, _, _ => []
  | n + 1, cs, prev =>
    match popTop cs with
    | none => []
    | some (e, cs') =>
      if prev = some e.1 ∨ keep e.2 = false then mergeLoop keep n cs' (some e.1)
      else e :: mergeLoop keep n cs' (some e.1)

/-- The pairs left in the runs. -/
def total (cs : List (List (K × V))) : ℕ := (cs.map List.length).sum

/-- The runs merged into one. -/
def merge (keep : V → Bool) (cs : List (List (K × V))) : List (K × V) :=
  mergeLoop keep (total cs) cs none

/-! ### One turn of the loop -/

/-- What `popTop` takes and leaves. -/
structure Pops (cs : List (List (K × V))) (e : K × V) (cs' : List (List (K × V))) : Prop where
  ascending : ∀ c ∈ cs', Ascending c
  least : ∀ c ∈ cs, ∀ x ∈ c, e.1 ≤ x.1
  fewer : total cs' + 1 = total cs
  mem : ∃ c ∈ cs, e ∈ c
  rest : ∀ c ∈ cs', ∀ x ∈ c, ∃ c₀ ∈ cs, x ∈ c₀
  hit : firstHit cs e.1 = some e.2
  other : ∀ k, k ≠ e.1 → firstHit cs' k = firstHit cs k

theorem popTop_none : ∀ {cs : List (List (K × V))}, popTop cs = none → ∀ c ∈ cs, c = []
  | [], _, _, hc => by cases hc
  | [] :: cs, h, c, hc => by
    rcases List.mem_cons.mp hc with rfl | hc
    · rfl
    · exact popTop_none (by simpa [popTop] using h) c hc
  | (e :: c₀) :: cs, h, _, _ => by
    unfold popTop at h
    split at h
    · cases h
    · split at h <;> cases h

omit [LinearOrder K] in
theorem total_cons (c : List (K × V)) (cs : List (List (K × V))) :
    total (c :: cs) = c.length + total cs := by simp [total]

omit [LinearOrder K] in
theorem eq_nil_of_total : ∀ {cs : List (List (K × V))}, total cs = 0 → ∀ c ∈ cs, c = []
  | [], _, _, hc => by cases hc
  | c₀ :: cs, h, c, hc => by
    rw [total_cons] at h
    rcases List.mem_cons.mp hc with rfl | hc
    · exact List.length_eq_zero_iff.mp (by omega)
    · exact eq_nil_of_total (by omega) c hc

/-- The front of the first run is taken: it is at most every other front. -/
theorem Pops.here {e : K × V} {c : List (K × V)} {cs : List (List (K × V))}
    (ha : ∀ c' ∈ (e :: c) :: cs, Ascending c') (hle : ∀ c' ∈ cs, ∀ x ∈ c', e.1 ≤ x.1) :
    Pops ((e :: c) :: cs) e (c :: cs) where
  ascending := by
    intro c' hc'
    rcases List.mem_cons.mp hc' with rfl | hc'
    · exact (ha _ List.mem_cons_self).tail
    · exact ha c' (List.mem_cons_of_mem _ hc')
  least := by
    intro c' hc' x hx
    rcases List.mem_cons.mp hc' with rfl | hc'
    · exact (ha _ List.mem_cons_self).head_le x hx
    · exact hle c' hc' x hx
  fewer := by simp only [total_cons, List.length_cons]; omega
  mem := ⟨e :: c, List.mem_cons_self, List.mem_cons_self⟩
  rest := by
    intro c' hc' x hx
    rcases List.mem_cons.mp hc' with rfl | hc'
    · exact ⟨_, List.mem_cons_self, List.mem_cons_of_mem _ hx⟩
    · exact ⟨c', List.mem_cons_of_mem _ hc', hx⟩
  hit := by rw [firstHit_cons, lookup_cons_eq]; rfl
  other := by
    intro k hk
    rw [firstHit_cons, firstHit_cons, lookup_cons_ne hk]

/-- A front further back is taken: the first run starts above it. -/
theorem Pops.there {c : List (K × V)} {cs cs' : List (List (K × V))} {e : K × V}
    (hc : Ascending c) (hlt : ∀ x ∈ c, e.1 < x.1) (h : Pops cs e cs') :
    Pops (c :: cs) e (c :: cs') where
  ascending := by
    intro c' hc'
    rcases List.mem_cons.mp hc' with rfl | hc'
    · exact hc
    · exact h.ascending c' hc'
  least := by
    intro c' hc' x hx
    rcases List.mem_cons.mp hc' with rfl | hc'
    · exact (hlt x hx).le
    · exact h.least c' hc' x hx
  fewer := by have := h.fewer; simp only [total_cons]; omega
  mem := by
    obtain ⟨c', hc', he⟩ := h.mem
    exact ⟨c', List.mem_cons_of_mem _ hc', he⟩
  rest := by
    intro c' hc' x hx
    rcases List.mem_cons.mp hc' with rfl | hc'
    · exact ⟨_, List.mem_cons_self, hx⟩
    · obtain ⟨c₀, hc₀, hx₀⟩ := h.rest c' hc' x hx
      exact ⟨c₀, List.mem_cons_of_mem _ hc₀, hx₀⟩
  hit := by rw [firstHit_cons, lookup_none_of_lt hlt]; exact h.hit
  other := by
    intro k hk
    rw [firstHit_cons, firstHit_cons, h.other k hk]

theorem popTop_pops : ∀ {cs : List (List (K × V))} {e : K × V} {cs' : List (List (K × V))},
    (∀ c ∈ cs, Ascending c) → popTop cs = some (e, cs') → Pops cs e cs'
  | [], _, _, _, h => by cases h
  | [] :: cs, e, cs', ha, h => by
    unfold popTop at h
    obtain ⟨⟨e₁, cs₁⟩, h₁, h₂⟩ := Option.map_eq_some_iff.mp h
    cases h₂
    exact Pops.there List.Pairwise.nil (fun x hx => by cases hx)
      (popTop_pops (fun c hc => ha c (List.mem_cons_of_mem _ hc)) h₁)
  | (e₀ :: c) :: cs, e, cs', ha, h => by
    have ha' : ∀ c ∈ cs, Ascending c := fun c hc => ha c (List.mem_cons_of_mem _ hc)
    unfold popTop at h
    cases hp : popTop cs with
    | none =>
      rw [hp] at h
      cases h
      refine Pops.here ha fun c' hc' x hx => ?_
      rw [popTop_none hp c' hc'] at hx
      cases hx
    | some p =>
      obtain ⟨e', cs''⟩ := p
      have hpop := popTop_pops ha' hp
      rw [hp] at h
      simp only at h
      split at h
      · rename_i hle
        cases h
        exact Pops.here ha fun c' hc' x hx => hle.trans (hpop.least c' hc' x hx)
      · rename_i hlt
        cases h
        refine Pops.there (ha _ List.mem_cons_self) (fun x hx => ?_) hpop
        exact (not_le.mp hlt).trans_le ((ha _ List.mem_cons_self).head_le x hx)

/-- The front that is taken stands in one run, which keeps the rest; no other
front is before it, and of the runs with that key at the front it is the
first. -/
theorem popTop_at : ∀ {cs : List (List (K × V))} {e : K × V} {cs' : List (List (K × V))}, popTop cs = some (e, cs') →
    ∃ i c, cs[i]? = some (e :: c) ∧ cs' = cs.set i c ∧
      ∀ j e' c', cs[j]? = some (e' :: c') → e.1 ≤ e'.1 ∧ (e'.1 = e.1 → i ≤ j)
  | [], _, _, h => by cases h
  | [] :: cs, e, cs', h => by
    unfold popTop at h
    obtain ⟨⟨e₁, cs₁⟩, h₁, h₂⟩ := Option.map_eq_some_iff.mp h
    obtain ⟨rfl, rfl⟩ := Prod.mk.inj h₂
    obtain ⟨i, c, hi, rfl, hle⟩ := popTop_at h₁
    refine ⟨i + 1, c, hi, rfl, fun j e' c' hj => ?_⟩
    cases j with
    | zero => cases hj
    | succ j => exact ⟨(hle j e' c' hj).1, fun he => Nat.succ_le_succ ((hle j e' c' hj).2 he)⟩
  | (e₀ :: c₀) :: cs, e, cs', h => by
    unfold popTop at h
    -- the first run is taken if no front behind it is smaller
    have hhere : (∀ (j : ℕ) (e' : K × V) c', cs[j]? = some (e' :: c') → e₀.1 ≤ e'.1) →
        ∃ (i : ℕ) (c : _), ((e₀ :: c₀) :: cs)[i]? = some (e₀ :: c) ∧ c₀ :: cs = ((e₀ :: c₀) :: cs).set i c ∧
          ∀ (j : ℕ) (e' : K × V) c', ((e₀ :: c₀) :: cs)[j]? = some (e' :: c') →
            e₀.1 ≤ e'.1 ∧ (e'.1 = e₀.1 → i ≤ j) := by
      intro hle
      refine ⟨0, c₀, rfl, rfl, fun j e' c' hj => ⟨?_, fun _ => Nat.zero_le j⟩⟩
      cases j with
      | zero => rw [(List.cons.inj (Option.some.inj hj)).1]
      | succ j => exact hle j e' c' hj
    cases hp : popTop cs with
    | none =>
      rw [hp] at h
      obtain ⟨rfl, rfl⟩ := Prod.mk.inj (Option.some.inj h)
      refine hhere fun j e' c' hj => ?_
      have hnil := popTop_none hp _ (List.mem_of_getElem? hj)
      cases hnil
    | some p =>
      obtain ⟨e₁, cs₁⟩ := p
      obtain ⟨i, c, hi, rfl, hle⟩ := popTop_at hp
      rw [hp] at h
      dsimp only at h
      by_cases hlt : e₀.1 ≤ e₁.1
      · rw [if_pos hlt] at h
        obtain ⟨rfl, rfl⟩ := Prod.mk.inj (Option.some.inj h)
        exact hhere fun j e' c' hj => hlt.trans (hle j e' c' hj).1
      · rw [if_neg hlt] at h
        obtain ⟨rfl, rfl⟩ := Prod.mk.inj (Option.some.inj h)
        refine ⟨i + 1, c, hi, rfl, fun j e' c' hj => ?_⟩
        cases j with
        | zero =>
          have he : e₀ = e' := (List.cons.inj (Option.some.inj hj)).1
          exact ⟨he ▸ (not_le.mp hlt).le, fun heq => absurd (heq ▸ he ▸ le_rfl) hlt⟩
        | succ j => exact ⟨(hle j e' c' hj).1, fun he => Nat.succ_le_succ ((hle j e' c' hj).2 he)⟩

/-- Taking a front takes one pair. -/
theorem popTop_total : ∀ {cs : List (List (K × V))} {e : K × V} {cs' : List (List (K × V))}, popTop cs = some (e, cs') →
    total cs' + 1 = total cs
  | [], _, _, h => by cases h
  | [] :: cs, e, cs', h => by
    unfold popTop at h
    obtain ⟨⟨e₁, cs₁⟩, h₁, h₂⟩ := Option.map_eq_some_iff.mp h
    obtain ⟨rfl, rfl⟩ := Prod.mk.inj h₂
    have ih : total cs₁ + 1 = total cs := popTop_total h₁
    rw [total_cons, total_cons, Nat.add_assoc, ih]
  | (e₀ :: c₀) :: cs, e, cs', h => by
    unfold popTop at h
    rw [total_cons, List.length_cons]
    cases hp : popTop cs with
    | none =>
      rw [hp] at h
      obtain ⟨rfl, rfl⟩ := Prod.mk.inj (Option.some.inj h)
      rw [total_cons]
      omega
    | some p =>
      have ih : total p.2 + 1 = total cs := popTop_total hp
      rw [hp] at h
      dsimp only at h
      split at h
      · obtain ⟨rfl, rfl⟩ := Prod.mk.inj (Option.some.inj h)
        rw [total_cons]
        omega
      · obtain ⟨rfl, rfl⟩ := Prod.mk.inj (Option.some.inj h)
        rw [total_cons, List.length_cons]
        omega

/-! ### The loop -/

/-- No front is below the key taken last. -/
def Above (prev : Option K) (cs : List (List (K × V))) : Prop :=
  ∀ p, prev = some p → ∀ c ∈ cs, ∀ x ∈ c, p ≤ x.1

theorem Pops.above {cs cs' : List (List (K × V))} {e : K × V} (h : Pops cs e cs') :
    Above (some e.1) cs' := by
  intro p hp c hc x hx
  obtain ⟨c₀, hc₀, hx₀⟩ := h.rest c hc x hx
  rw [← Option.some.inj hp]
  exact h.least c₀ hc₀ x hx₀

/-- The key taken last is at most the one taken now. -/
theorem Pops.passed_le {cs cs' : List (List (K × V))} {e : K × V} {prev : Option K} (h : Pops cs e cs')
    (hb : Above prev cs) {p : K} (hp : prev = some p) : p ≤ e.1 := by
  obtain ⟨c, hc, he⟩ := h.mem
  exact hb p hp c hc e he

/-- A key passed before the one taken now is at no front any more. -/
theorem Pops.passed_none {cs cs' : List (List (K × V))} {e : K × V} {prev : Option K} (h : Pops cs e cs')
    (hb : Above prev cs) {k : K} (hk : k ≠ e.1) (hp : prev = some k) : firstHit cs k = none := by
  have hlt : k < e.1 := lt_of_le_of_ne (h.passed_le hb hp) hk
  refine List.findSome?_eq_none_iff.mpr fun c hc => ?_
  exact lookup_none_of_lt fun x hx => hlt.trans_le (h.least c hc x hx)

/-- Everything the loop writes lies above the key taken last, in ascending
order. -/
theorem mergeLoop_ascending (keep : V → Bool) : ∀ (n : ℕ) (cs : List (List (K × V))) (prev : Option K),
    (∀ c ∈ cs, Ascending c) → Above prev cs →
    Ascending (mergeLoop keep n cs prev) ∧
      ∀ x ∈ mergeLoop keep n cs prev, ∀ p, prev = some p → p < x.1
  | 0, _, _, _, _ => ⟨List.Pairwise.nil, fun x hx => by cases hx⟩
  | n + 1, cs, prev, ha, hb => by
    unfold mergeLoop
    cases hp : popTop cs with
    | none => exact ⟨List.Pairwise.nil, fun x hx => by cases hx⟩
    | some q =>
      obtain ⟨e, cs'⟩ := q
      have hpop := popTop_pops ha hp
      obtain ⟨ih₁, ih₂⟩ := mergeLoop_ascending keep n cs' (some e.1) hpop.ascending hpop.above
      have hle : ∀ p, prev = some p → p ≤ e.1 := fun p hpr => hpop.passed_le hb hpr
      simp only
      split
      · exact ⟨ih₁, fun x hx p hpr => (hle p hpr).trans_lt (ih₂ x hx _ rfl)⟩
      · rename_i hne
        refine ⟨List.pairwise_cons.mpr ⟨fun x hx => ih₂ x hx _ rfl, ih₁⟩, fun x hx p hpr => ?_⟩
        rcases List.mem_cons.mp hx with rfl | hx
        · refine lt_of_le_of_ne (hle p hpr) fun heq => hne (Or.inl ?_)
          rw [hpr, heq]
        · exact (hle p hpr).trans_lt (ih₂ x hx _ rfl)

/-- What the loop writes for each key it has not passed yet. -/
theorem lookup_mergeLoop (keep : V → Bool) : ∀ (n : ℕ) (cs : List (List (K × V))) (prev : Option K),
    total cs ≤ n → (∀ c ∈ cs, Ascending c) → Above prev cs → ∀ k,
    (mergeLoop keep n cs prev).lookup k =
      if prev = some k then none else (firstHit cs k).filter keep
  | 0, cs, prev, hn, _, _, k => by
    have hf : firstHit cs k = none := List.findSome?_eq_none_iff.mpr fun c hc => by
      rw [eq_nil_of_total (Nat.le_zero.mp hn) c hc]; rfl
    simp [mergeLoop, hf]
  | n + 1, cs, prev, hn, ha, hb, k => by
    unfold mergeLoop
    cases hp : popTop cs with
    | none =>
      have hf : firstHit cs k = none := List.findSome?_eq_none_iff.mpr fun c hc => by
        rw [popTop_none hp c hc]; rfl
      simp [hf]
    | some q =>
      obtain ⟨e, cs'⟩ := q
      have hpop := popTop_pops ha hp
      have hn' : total cs' ≤ n := by have := hpop.fewer; omega
      have ih := lookup_mergeLoop keep n cs' (some e.1) hn' hpop.ascending hpop.above k
      simp only
      by_cases hk : k = e.1
      · -- the key just taken: everything below it is passed
        subst hk
        rw [if_pos rfl] at ih
        split
        · rename_i hor
          rw [ih, hpop.hit]
          rcases hor with h | h
          · rw [if_pos h]
          · simp [Option.filter, h]
        · rename_i hor
          have h₁ : prev ≠ some e.1 := fun h => hor (Or.inl h)
          have h₂ : keep e.2 = true := by
            rcases hkeep : keep e.2 with _ | _
            · exact absurd (Or.inr hkeep) hor
            · rfl
          rw [lookup_cons_eq, if_neg h₁, hpop.hit]
          simp [Option.filter, h₂]
      · have hne : ¬ (some e.1 = some k) := fun h => hk (Option.some.inj h).symm
        rw [if_neg hne, hpop.other k hk] at ih
        have hrhs : (if prev = some k then none else (firstHit cs k).filter keep) =
            (firstHit cs k).filter keep := by
          split
          · rename_i hpr; rw [hpop.passed_none hb hk hpr]; rfl
          · rfl
        rw [hrhs, ← ih]
        split
        · rfl
        · exact lookup_cons_ne hk

/-! ### The merge -/

theorem above_none (cs : List (List (K × V))) : Above none cs := fun _ h => by cases h

theorem merge_ascending (keep : V → Bool) {cs : List (List (K × V))} (ha : ∀ c ∈ cs, Ascending c) :
    Ascending (merge keep cs) :=
  (mergeLoop_ascending keep _ cs none ha (above_none cs)).1

theorem lookup_merge (keep : V → Bool) {cs : List (List (K × V))} (ha : ∀ c ∈ cs, Ascending c) (k : K) :
    (merge keep cs).lookup k = (firstHit cs k).filter keep := by
  have h := lookup_mergeLoop keep (total cs) cs none le_rfl ha (above_none cs) k
  rw [if_neg (by simp)] at h
  exact h

end Keyed
end Amind
