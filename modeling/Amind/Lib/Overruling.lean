/-
# Who overrules whom

Pairs tell what overrules what. Whatever is overruled should be so in the end by
something that is not: a chain of pairs `Leads` to it (`Led`). This fails if and only
if there is a `Knot`: each of a group is overruled by one of the group, and by no one
else (`led_iff_no_knot`).

More pairs change nothing about it if they overrule nothing a second time and lead to
what they overrule themselves (`Settles`, `led_iff`). One contender against others
does so, if whoever overrules it is not overruled (`Round.settles`).
-/
import Mathlib.Data.Set.Basic
import Mathlib.Logic.Relation

namespace Amind
namespace Overruling

variable {α : Type*} {rs new new' : List (α × α)} {a b c : α}

/-- Of each pair, the second is overruled. -/
def overruled (rs : List (α × α)) : List α := rs.map (·.2)

/-- A chain of pairs from one to another. -/
def Leads (rs : List (α × α)) : α → α → Prop := Relation.TransGen fun a b => (a, b) ∈ rs

/-- Whatever is overruled is so, in the end, by something that is not. -/
def Led (rs : List (α × α)) : Prop := ∀ b ∈ overruled rs, ∃ a, a ∉ overruled rs ∧ Leads rs a b

/-- Each of the group is overruled by one of it, and by no one else. -/
structure Knot (rs : List (α × α)) (group : Set α) : Prop where
  nonempty : group.Nonempty
  within : ∀ b ∈ group, ∃ a ∈ group, (a, b) ∈ rs
  only : ∀ b ∈ group, ∀ a, (a, b) ∈ rs → a ∈ group

theorem mem_overruled : b ∈ overruled rs ↔ ∃ a, (a, b) ∈ rs := by
  simp [overruled]

theorem overruled_append : overruled (new ++ rs) = overruled new ++ overruled rs := List.map_append

theorem mem_overruled_append : b ∈ overruled (new ++ rs) ↔ b ∈ overruled new ∨ b ∈ overruled rs := by
  rw [overruled_append, List.mem_append]

/-- More pairs, more chains. -/
theorem Leads.mono (h : Leads rs a b) : Leads (new ++ rs) a b := by
  have hle : (fun a b => (a, b) ∈ rs) ≤ fun a b => (a, b) ∈ new ++ rs := fun _ _ hr => List.mem_append_right new hr
  exact Relation.TransGen.mono hle a b h

/-- A chain starts with a pair. -/
theorem Leads.exists_head (h : Leads rs a b) : ∃ c, (a, c) ∈ rs := by
  obtain ⟨c, hc, -⟩ := Relation.TransGen.head'_iff.mp h
  exact ⟨c, hc⟩

/-! ### Knots -/

/-- Who leads to one of a knot is of the knot. -/
theorem Knot.mem_of_leads {group : Set α} (h : Knot rs group) (hb : b ∈ group) (hab : Leads rs a b) : a ∈ group := by
  induction hab using Relation.TransGen.head_induction_on with
  | single hpair => exact h.only b hb _ hpair
  | head hpair _ ih => exact h.only _ ih _ hpair

/-- **What is not led is in a knot.** -/
theorem led_iff_no_knot : Led rs ↔ ∀ group, ¬ Knot rs group := by
  constructor
  · intro h group hknot
    obtain ⟨b, hb⟩ := hknot.nonempty
    obtain ⟨a, -, hab⟩ := hknot.within b hb
    obtain ⟨w, hw, hlead⟩ := h b (mem_overruled.mpr ⟨a, hab⟩)
    obtain ⟨a', -, haw⟩ := hknot.within w (hknot.mem_of_leads hb hlead)
    exact hw (mem_overruled.mpr ⟨a', haw⟩)
  · intro h b hb
    by_contra hnone
    -- otherwise all that lead to `b` are overruled, and make a knot with it
    have hall : ∀ a, a = b ∨ Leads rs a b → a ∈ overruled rs := by
      rintro a (rfl | hab)
      · exact hb
      · exact not_not.mp fun ha => hnone ⟨a, ha, hab⟩
    have hback : ∀ a b', b' = b ∨ Leads rs b' b → (a, b') ∈ rs → a = b ∨ Leads rs a b := by
      rintro a b' (rfl | hb') hpair
      · exact .inr (.single hpair)
      · exact .inr (Relation.TransGen.head hpair hb')
    refine h {a | a = b ∨ Leads rs a b} ⟨⟨b, .inl rfl⟩, fun b' hb' => ?_, fun b' hb' a hpair => hback a b' hb' hpair⟩
    obtain ⟨a, hpair⟩ := mem_overruled.mp (hall b' hb')
    exact ⟨a, hback a b' hb' hpair, hpair⟩

/-! ### More pairs -/

/-- The new pairs overrule nothing that was overruled, and lead to what they
overrule. -/
structure Settles (rs new : List (α × α)) : Prop where
  fresh : ∀ b ∈ overruled new, b ∉ overruled rs
  led : ∀ b ∈ overruled new, ∃ a, a ∉ overruled (new ++ rs) ∧ Leads (new ++ rs) a b

theorem Settles.nil (rs : List (α × α)) : Settles rs [] where
  fresh := fun _ h => by cases h
  led := fun _ h => by cases h

theorem Settles.append (h : Settles rs new) (h' : Settles (new ++ rs) new') : Settles rs (new' ++ new) := by
  refine ⟨fun b hb hold => ?_, fun b hb => ?_⟩
  · rcases mem_overruled_append.mp hb with hb | hb
    · exact h'.fresh b hb (mem_overruled_append.mpr (.inr hold))
    · exact h.fresh b hb hold
  · rw [List.append_assoc]
    rcases mem_overruled_append.mp hb with hb | hb
    · exact h'.led b hb
    · obtain ⟨a, ha, hlead⟩ := h.led b hb
      by_cases hnew : a ∈ overruled new'
      · obtain ⟨a', ha', hlead'⟩ := h'.led a hnew
        exact ⟨a', ha', hlead'.trans hlead.mono⟩
      · refine ⟨a, fun hmem => ?_, hlead.mono⟩
        rcases mem_overruled_append.mp hmem with hmem | hmem
        · exact hnew hmem
        · exact ha hmem

/-- A chain of old and new pairs ends with what the new ones overrule, or with a chain
of old ones. -/
theorem Settles.leads_or (h : Settles rs new) (ha : a ∉ overruled rs) (hab : Leads (new ++ rs) a b) :
    b ∉ overruled rs ∨ ∃ c, c ∉ overruled rs ∧ Leads rs c b := by
  have hpair : ∀ {c d : α}, (c, d) ∈ new ++ rs → d ∉ overruled rs ∨ (c, d) ∈ rs := by
    intro c d hcd
    rcases List.mem_append.mp hcd with hcd | hcd
    · exact .inl (h.fresh d (mem_overruled.mpr ⟨c, hcd⟩))
    · exact .inr hcd
  induction hab with
  | single hcd =>
    rcases hpair hcd with hd | hold
    · exact .inl hd
    · exact .inr ⟨a, ha, .single hold⟩
  | tail _ hcd ih =>
    rcases hpair hcd with hd | hold
    · exact .inl hd
    · rcases ih with hc | ⟨c', hc', hlead⟩
      · exact .inr ⟨_, hc, .single hold⟩
      · exact .inr ⟨c', hc', hlead.tail hold⟩

/-- **Pairs that settle themselves change nothing.** -/
theorem Settles.led_iff (h : Settles rs new) : Led (new ++ rs) ↔ Led rs := by
  constructor
  · intro hled b hb
    obtain ⟨a, ha, hlead⟩ := hled b (mem_overruled_append.mpr (.inr hb))
    rcases h.leads_or (fun hold => ha (mem_overruled_append.mpr (.inr hold))) hlead with hnot | hold
    · exact absurd hb hnot
    · exact hold
  · intro hled b hb
    rcases mem_overruled_append.mp hb with hb | hb
    · exact h.led b hb
    · obtain ⟨a, ha, hlead⟩ := hled b hb
      by_cases hnew : a ∈ overruled new
      · obtain ⟨a', ha', hlead'⟩ := h.led a hnew
        exact ⟨a', ha', hlead'.trans hlead.mono⟩
      · refine ⟨a, fun hmem => ?_, hlead.mono⟩
        rcases mem_overruled_append.mp hmem with hmem | hmem
        · exact hnew hmem
        · exact ha hmem

/-- The pairs of one contender: it overrules or is overruled, and whoever overrules it
is not overruled. -/
structure Round (rs : List (α × α)) (c : α) (new : List (α × α)) : Prop where
  ends : ∀ r ∈ new, r.1 = c ∨ r.2 = c
  fresh : ∀ r ∈ new, r.2 = c ∨ r.2 ∉ overruled rs
  winner : ∀ r ∈ new, r.2 = c → r.1 ∉ overruled (new ++ rs)

theorem Round.nil (rs : List (α × α)) (c : α) : Round rs c [] where
  ends := fun _ h => by cases h
  fresh := fun _ h => by cases h
  winner := fun _ h => by cases h

/-- One more pair, before the others. -/
theorem Round.snoc {r : α × α} (h : Round (r :: rs) c new) (hends : r.1 = c ∨ r.2 = c)
    (hfresh : r.2 = c ∨ r.2 ∉ overruled rs) (hwinner : r.2 = c → r.1 ∉ overruled (new ++ r :: rs)) :
    Round rs c (new ++ [r]) := by
  refine ⟨fun r' hr => ?_, fun r' hr => ?_, fun r' hr => ?_⟩
  all_goals rcases List.mem_append.mp hr with hr | hr
  · exact h.ends r' hr
  · exact List.mem_singleton.mp hr ▸ hends
  · exact (h.fresh r' hr).imp_right fun hnot hmem => hnot (List.mem_cons_of_mem _ hmem)
  · exact List.mem_singleton.mp hr ▸ hfresh
  · rw [List.append_assoc]
    exact h.winner r' hr
  · rw [List.append_assoc, List.mem_singleton.mp hr]
    exact hwinner

theorem Round.settles (h : Round rs c new) (hc : c ∉ overruled rs) : Settles rs new := by
  refine ⟨fun b hb => ?_, fun b hb => ?_⟩
  all_goals obtain ⟨a, hab⟩ := mem_overruled.mp hb
  · rcases h.fresh _ hab with hbc | hfresh
    · have hbc : b = c := hbc
      exact hbc ▸ hc
    · exact hfresh
  · have hmem : ∀ {r : α × α}, r ∈ new → r ∈ new ++ rs := fun hr => List.mem_append_left rs hr
    by_cases hlost : c ∈ overruled new
    · obtain ⟨w, hwc⟩ := mem_overruled.mp hlost
      refine ⟨w, h.winner _ hwc rfl, ?_⟩
      rcases h.ends _ hab with hac | hbc
      · have hac : a = c := hac
        exact .tail (.single (hmem hwc)) (hac ▸ hmem hab)
      · have hbc : b = c := hbc
        exact hbc ▸ .single (hmem hwc)
    · have hac : a = c := (h.ends _ hab).resolve_right fun hbc => hlost (hbc ▸ hb)
      refine ⟨c, fun hover => ?_, hac ▸ .single (hmem hab)⟩
      rcases mem_overruled_append.mp hover with hover | hover
      · exact hlost hover
      · exact hc hover

end Overruling
end Amind
