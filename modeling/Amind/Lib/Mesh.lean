/-
# Linking nodes one by one

Nodes have lists of the nodes they are linked to, and a list takes no more than
`m`. One node after the other is linked to those found from a fixed entry, by
following links: its list is replaced by `m` of them, or all if they are fewer,
and each of these that has room left is linked back.

With room for all nodes everything linked is found (`Woven.step`), except when
the entry is linked first, to itself twice, and `m` is 2. Of more than `m + 1`
nodes there is always one that is not (`Packed.step`): the nodes found are linked
among themselves until all lists are full.
-/
import Mathlib.Data.List.Dedup
import Mathlib.Data.List.Perm.Subperm
import Mathlib.Logic.Relation

namespace Amind
namespace Mesh

variable {α : Type} [DecidableEq α]

/-- Links lead from the one to the other. -/
def Leads (nb : α → List α) : α → α → Prop := Relation.ReflTransGen fun a b => b ∈ nb a

omit [DecidableEq α] in
/-- What is found is the entry, or something that is linked to. -/
theorem mem_of_leads {nb : α → List α} {entry v : α} {done : List α} (hlinks : ∀ v, ∀ w ∈ nb v, w = entry ∨ w ∈ done)
    (h : Leads nb entry v) : v = entry ∨ v ∈ done := by
  rcases Relation.ReflTransGen.cases_tail h with rfl | ⟨u, -, hstep⟩
  · exact .inl rfl
  · exact hlinks u v hstep

omit [DecidableEq α] in
/-- What has the entry and is closed under the links has all that is found. -/
theorem mem_of_closed {nb : α → List α} {entry v : α} {l : List α} (hl : entry ∈ l)
    (hclosed : ∀ v ∈ l, ∀ w ∈ nb v, w ∈ l) (h : Leads nb entry v) : v ∈ l := by
  induction h with
  | refl => exact hl
  | @tail u w _ hstep ih => exact hclosed u ih w hstep

/-- The lists when the one of `id` is replaced. -/
def own (nb : α → List α) (id : α) (sel : List α) (v : α) : List α := if v = id then sel else nb v

/-- `id` is linked: `found` is what is found from the entry, and `sel` what is
selected of it. -/
structure Relinked (m : ℕ) (entry : α) (nb nb' : α → List α) (id : α) (found sel : List α) : Prop where
  found_nodup : found.Nodup
  mem_found : ∀ v, v ∈ found ↔ Leads nb entry v
  sel_nodup : sel.Nodup
  length_sel : sel.length = min m found.length
  sel_found : ∀ v ∈ sel, v ∈ found
  all : found.length ≤ m → ∀ v ∈ found, v ∈ sel
  /-- Lists that are selected and have room get `id`. -/
  lists : ∀ v, nb' v = if v ∈ sel ∧ (own nb id sel v).length < m then own nb id sel v ++ [id] else own nb id sel v

variable {m : ℕ} {entry id : α} {done found sel : List α} {nb nb' : α → List α}

theorem own_self : own nb id sel id = sel := if_pos rfl

theorem own_other {v : α} (h : v ≠ id) : own nb id sel v = nb v := if_neg h

namespace Relinked

variable (h : Relinked m entry nb nb' id found sel)
include h

theorem entry_found : entry ∈ found := (h.mem_found entry).mpr .refl

theorem found_closed {v w : α} (hv : v ∈ found) (hw : w ∈ nb v) : w ∈ found :=
  (h.mem_found w).mpr (((h.mem_found v).mp hv).tail hw)

/-- A list is left, or the node is added. -/
theorem lists_cases (v : α) : nb' v = own nb id sel v ∨ nb' v = own nb id sel v ++ [id] := by
  rw [h.lists]
  split
  · exact .inr rfl
  · exact .inl rfl

theorem mem_of_own {v w : α} (hw : w ∈ own nb id sel v) : w ∈ nb' v := by
  rcases h.lists_cases v with he | he
  · rwa [he]
  · rw [he]
    exact List.mem_append_left _ hw

/-- What was linked before stays linked. -/
theorem keeps {v w : α} (hv : v ≠ id) (hw : w ∈ nb v) : w ∈ nb' v := h.mem_of_own (by rwa [own_other hv])

theorem mem_self {w : α} (hw : w ∈ sel) : w ∈ nb' id := h.mem_of_own (by rwa [own_self])

/-- A list that is selected and has room gets the node. -/
theorem links_back {v : α} (hv : v ≠ id) (hsel : v ∈ sel) (hroom : (nb v).length < m) : nb' v = nb v ++ [id] := by
  rw [h.lists, own_other hv, if_pos ⟨hsel, hroom⟩]

/-- A list without room is left. -/
theorem left {v : α} (hv : v ≠ id) (hfull : v ∈ sel → m ≤ (nb v).length) : nb' v = nb v := by
  rw [h.lists, own_other hv, if_neg fun hin => Nat.not_lt.mpr (hfull hin.1) hin.2]

/-- Links lead to what was linked or selected, and to the node. -/
theorem mem_cases {v w : α} (hw : w ∈ nb' v) : w = id ∨ w ∈ own nb id sel v := by
  rcases h.lists_cases v with he | he
  · exact .inr (he ▸ hw)
  · rw [he] at hw
    exact (List.mem_append.mp hw).symm.imp_left List.mem_singleton.mp

theorem length_le (v : α) : (nb' v).length ≤ (own nb id sel v).length + 1 := by
  rcases h.lists_cases v with he | he
  · rw [he]
    exact Nat.le_succ _
  · exact Nat.le_of_eq (by rw [he, List.length_append, List.length_singleton])

theorem le_length (v : α) : (own nb id sel v).length ≤ (nb' v).length := by
  rcases h.lists_cases v with he | he
  · exact Nat.le_of_eq (by rw [he])
  · rw [he, List.length_append]
    exact Nat.le_add_right _ _

/-- The node is not linked to itself unless it was found. -/
theorem own_left (hid : id ∉ found) : nb' id = sel := by
  rw [h.lists, own_self, if_neg fun hin => hid (h.sel_found id hin.1)]

end Relinked

/-! ### Room for all -/

/-- What holds when `done` are linked, with room for all nodes. -/
structure Woven (entry : α) (done : List α) (nb : α → List α) : Prop where
  nodup : done.Nodup
  blank : ∀ v, v ∉ done → v ≠ entry → nb v = []
  links : ∀ v, ∀ w ∈ nb v, w = entry ∨ w ∈ done
  home : ∀ v ∈ done, entry ∈ nb v
  led : ∀ v ∈ done, Leads nb entry v
  short : ∀ v ∈ done, v ≠ entry → (nb v).length ≤ done.length
  /-- The entry is linked to itself, and linked back to itself. -/
  first : (nb entry).length ≤ done.length + if entry ∈ done then 1 else 0

theorem woven_nil (h : ∀ v, nb v = []) : Woven entry [] nb where
  nodup := List.nodup_nil
  blank := fun v _ _ => h v
  links := fun v w hw => by
    rw [h v] at hw
    cases hw
  home := fun _ hv => absurd hv List.not_mem_nil
  led := fun _ hv => absurd hv List.not_mem_nil
  short := fun _ hv => absurd hv List.not_mem_nil
  first := by
    rw [h entry]
    exact Nat.zero_le _

/-- What is linked and the entry are what is found. -/
theorem Woven.leads_iff (h : Woven entry done nb) {v : α} : Leads nb entry v ↔ v = entry ∨ v ∈ done := by
  refine ⟨mem_of_leads h.links, ?_⟩
  rintro (rfl | hv)
  · exact .refl
  · exact h.led v hv

/-- Some list has room. -/
theorem Woven.room (h : Woven entry done nb) (hlt : done.length < m) (htwo : done = [entry] → 3 ≤ m) :
    ∃ v, (v = entry ∨ v ∈ done) ∧ (nb v).length < m := by
  by_cases hother : ∃ v ∈ done, v ≠ entry
  · obtain ⟨v, hv, hne⟩ := hother
    exact ⟨v, .inr hv, Nat.lt_of_le_of_lt (h.short v hv hne) hlt⟩
  · have hall : ∀ v ∈ done, v = entry := fun v hv => by_contra fun hne => hother ⟨v, hv, hne⟩
    have hfirst := h.first
    refine ⟨entry, .inl rfl, ?_⟩
    by_cases hin : entry ∈ done
    · -- the entry alone is linked
      have hone : done = [entry] := by
        cases hd : done with
        | nil =>
          rw [hd] at hin
          cases hin
        | cons v rest =>
          have hnodup := h.nodup
          rw [hd] at hall hnodup
          have hrest : rest = [] := List.eq_nil_iff_forall_not_mem.mpr fun w hw =>
            (List.nodup_cons.mp hnodup).1 ((hall v List.mem_cons_self).trans
              (hall w (List.mem_cons_of_mem _ hw)).symm ▸ hw)
          rw [hrest, hall v List.mem_cons_self]
      have := htwo hone
      rw [if_pos hin, hone, List.length_singleton] at hfirst
      omega
    · rw [if_neg hin] at hfirst
      omega

/-- What is found is the entry, or is linked. -/
theorem Woven.found_iff (h : Woven entry done nb) (hr : Relinked m entry nb nb' id found sel) {v : α} :
    v ∈ found ↔ v = entry ∨ v ∈ done := (hr.mem_found v).trans h.leads_iff

theorem Woven.length_found (h : Woven entry done nb) (hr : Relinked m entry nb nb' id found sel) :
    found.length ≤ done.length + 1 :=
  (hr.found_nodup.subperm fun _ hv => List.mem_cons.mpr ((h.found_iff hr).mp hv)).length_le

/-- Everything linked is still found, and the node is. -/
theorem Woven.led_step (h : Woven entry done nb) (hr : Relinked m entry nb nb' id found sel) (hid : id ∉ done)
    (hlt : done.length < m) (htwo : done = [entry] → 3 ≤ m) : ∀ v ∈ id :: done, Leads nb' entry v := by
  have hall := hr.all (Nat.le_trans (h.length_found hr) hlt)
  have hne : ∀ {v : α}, v ∈ done → v ≠ id := fun hv heq => hid (heq ▸ hv)
  by_cases hself : id = entry
  · -- the entry itself is linked to all that was found
    intro v hv
    have hmem : v ∈ sel := by
      refine hall v ((h.found_iff hr).mpr ?_)
      rcases List.mem_cons.mp hv with rfl | hv
      · exact .inl hself
      · exact .inr hv
    have hstep := hr.mem_self hmem
    rw [hself] at hstep
    exact .single hstep
  · -- the ways that were there stay, and a list with room leads to the node
    have hold : ∀ v, Leads nb entry v → Leads nb' entry v := by
      intro v hv
      induction hv with
      | refl => exact .refl
      | @tail u w hu hstep ih =>
        refine ih.tail (hr.keeps (fun heq => ?_) hstep)
        rcases h.leads_iff.mp hu with hu | hu
        · exact hself (heq.symm.trans hu)
        · exact hne hu heq
    intro v hv
    rcases List.mem_cons.mp hv with rfl | hv
    · obtain ⟨u, hu, hroom⟩ := h.room hlt htwo
      have hneu : u ≠ v := by
        rcases hu with rfl | hu
        · exact fun heq => hself heq.symm
        · exact hne hu
      have hback := hr.links_back hneu (hall u ((h.found_iff hr).mpr hu)) hroom
      refine (hold u (h.leads_iff.mpr hu)).tail ?_
      show v ∈ nb' u
      rw [hback]
      exact List.mem_append_right _ (List.mem_singleton_self v)
    · exact hold v (h.led v hv)

/-- Linking one more node. -/
theorem Woven.step (h : Woven entry done nb) (hr : Relinked m entry nb nb' id found sel) (hid : id ∉ done)
    (hlt : done.length < m) (htwo : done = [entry] → 3 ≤ m) : Woven entry (id :: done) nb' := by
  have hlen := h.length_found hr
  have hsel : sel.length ≤ done.length + 1 := by
    rw [hr.length_sel]
    exact Nat.le_trans (Nat.min_le_right _ _) hlen
  have hentry : entry ∈ sel := hr.all (Nat.le_trans hlen hlt) entry hr.entry_found
  have hne : ∀ {v : α}, v ∈ done → v ≠ id := fun hv heq => hid (heq ▸ hv)
  refine ⟨List.nodup_cons.mpr ⟨hid, h.nodup⟩, fun v hv hve => ?_, fun v w hw => ?_, fun v hv => ?_,
    h.led_step hr hid hlt htwo, fun v hv hve => ?_, ?_⟩
  · obtain ⟨hvid, hvdone⟩ := not_or.mp (fun hin => hv (List.mem_cons.mpr hin))
    have hnot : v ∉ sel := fun hin => ((h.found_iff hr).mp (hr.sel_found v hin)).elim hve hvdone
    rw [hr.left hvid fun hin => absurd hin hnot]
    exact h.blank v hvdone hve
  · rcases hr.mem_cases hw with rfl | hw
    · exact .inr List.mem_cons_self
    · by_cases hv : v = id
      · rw [hv, own_self] at hw
        exact ((h.found_iff hr).mp (hr.sel_found w hw)).imp_right (List.mem_cons_of_mem _)
      · rw [own_other hv] at hw
        exact (h.links v w hw).imp_right (List.mem_cons_of_mem _)
  · rcases List.mem_cons.mp hv with rfl | hv
    · exact hr.mem_self hentry
    · exact hr.keeps (hne hv) (h.home v hv)
  · rcases List.mem_cons.mp hv with rfl | hv
    · have hnot : v ∉ found := fun hin => ((h.found_iff hr).mp hin).elim hve hid
      rw [hr.own_left hnot]
      exact hsel
    · have hlength := hr.length_le v
      rw [own_other (hne hv)] at hlength
      exact Nat.le_trans hlength (Nat.succ_le_succ (h.short v hv hve))
  · have hlength := hr.length_le entry
    by_cases hself : entry = id
    · rw [if_pos (by rw [hself]; exact List.mem_cons_self)]
      rw [hself, own_self] at hlength
      rw [hself, List.length_cons]
      omega
    · rw [own_other hself] at hlength
      have hfirst := h.first
      have hin : entry ∈ id :: done ↔ entry ∈ done := by simp [hself]
      simp only [hin, List.length_cons]
      omega

/-! ### Room for fewer -/

/-- What holds whenever `done` are linked: of the nodes found there are at most
`m + 1`, and each is linked to the others or full. -/
structure Packed (m : ℕ) (entry : α) (done : List α) (nb : α → List α) : Prop where
  links : ∀ v, ∀ w ∈ nb v, w = entry ∨ w ∈ done
  few : ∀ found : List α, found.Nodup → (∀ v, v ∈ found ↔ Leads nb entry v) →
    found.length ≤ m + 1 ∧ ∀ v ∈ found, min m (found.length - 1) ≤ (nb v).length

omit [DecidableEq α] in
theorem packed_nil (h : ∀ v, nb v = []) : Packed m entry [] nb where
  links := fun v w hw => by
    rw [h v] at hw
    cases hw
  few := by
    intro found hnodup hmem
    -- only the entry is found
    have hsub : found ⊆ [entry] := by
      intro v hv
      rcases Relation.ReflTransGen.cases_tail ((hmem v).mp hv) with rfl | ⟨u, -, hstep⟩
      · exact List.mem_singleton_self v
      · rw [h u] at hstep
        cases hstep
    have hlen := (hnodup.subperm hsub).length_le
    rw [List.length_singleton] at hlen
    exact ⟨by omega, fun v _ => by omega⟩

/-- No more than `m + 1` nodes are found. -/
theorem Packed.length_le (h : Packed m entry done nb) {l : List α} (hnodup : l.Nodup)
    (hled : ∀ v ∈ l, Leads nb entry v) : l.length ≤ m + 1 := by
  classical
  have hmem : ∀ v, v ∈ (entry :: done).dedup.filter (Leads nb entry ·) ↔ Leads nb entry v := by
    intro v
    rw [List.mem_filter, List.mem_dedup, List.mem_cons, decide_eq_true_iff]
    exact and_iff_right_of_imp (mem_of_leads h.links)
  have hfew := (h.few _ ((List.nodup_dedup _).filter _) hmem).1
  exact Nat.le_trans (hnodup.subperm fun v hv => (hmem v).mpr (hled v hv)).length_le hfew

section Few

/-! Few are found after a node is linked, if there were few before: no more if it was
found already (it is the entry) or all lists are full, and else the node. -/

variable {found' : List α} (hr : Relinked m entry nb nb' id found sel)
  (hfull : ∀ v ∈ found, min m (found.length - 1) ≤ (nb v).length) (hnodup' : found'.Nodup)
  (hmem' : ∀ v, v ∈ found' ↔ Leads nb' entry v)
include hr hfull hnodup' hmem'

theorem Relinked.few_again (hfew : found.length ≤ m + 1) (hin : id ∈ found) :
    found'.length ≤ m + 1 ∧ ∀ v ∈ found', min m (found'.length - 1) ≤ (nb' v).length := by
  have hclosed : ∀ v ∈ found, ∀ w ∈ nb' v, w ∈ found := by
    intro v hv w hw
    rcases hr.mem_cases hw with rfl | hw
    · exact hin
    · by_cases hvid : v = id
      · rw [hvid, own_self] at hw
        exact hr.sel_found w hw
      · rw [own_other hvid] at hw
        exact hr.found_closed hv hw
  have hsub : found' ⊆ found := fun v hv => mem_of_closed hr.entry_found hclosed ((hmem' v).mp hv)
  have hlen := (hnodup'.subperm hsub).length_le
  refine ⟨Nat.le_trans hlen hfew, fun v hv => ?_⟩
  have hlow := hr.le_length v
  by_cases hvid : v = id
  · rw [hvid, own_self, hr.length_sel] at hlow
    rw [hvid]
    omega
  · rw [own_other hvid] at hlow
    have := hfull v (hsub hv)
    omega

theorem Relinked.few_room (hin : id ∉ found) (hroom : found.length ≤ m) :
    found'.length ≤ m + 1 ∧ ∀ v ∈ found', min m (found'.length - 1) ≤ (nb' v).length := by
  have hclosed : ∀ v ∈ id :: found, ∀ w ∈ nb' v, w ∈ id :: found := by
    intro v hv w hw
    rcases hr.mem_cases hw with rfl | hw
    · exact List.mem_cons_self
    · rcases List.mem_cons.mp hv with rfl | hv
      · rw [own_self] at hw
        exact List.mem_cons_of_mem _ (hr.sel_found w hw)
      · have hvid : v ≠ id := fun heq => hin (heq ▸ hv)
        rw [own_other hvid] at hw
        exact List.mem_cons_of_mem _ (hr.found_closed hv hw)
  have hsub : found' ⊆ id :: found := fun v hv =>
    mem_of_closed (List.mem_cons_of_mem _ hr.entry_found) hclosed ((hmem' v).mp hv)
  have hlen := (hnodup'.subperm hsub).length_le
  rw [List.length_cons] at hlen
  refine ⟨by omega, fun v hv => ?_⟩
  rcases List.mem_cons.mp (hsub hv) with rfl | hvin
  · rw [hr.own_left hin, hr.length_sel]
    omega
  · have hvid : v ≠ id := fun heq => hin (heq ▸ hvin)
    have hlow := hfull v hvin
    by_cases hspace : (nb v).length < m
    · rw [hr.links_back hvid (hr.all hroom v hvin) hspace, List.length_append, List.length_singleton]
      omega
    · rw [hr.left hvid fun _ => by omega]
      omega

theorem Relinked.few_full (hfew : found.length ≤ m + 1) (hin : id ∉ found) (hroom : ¬ found.length ≤ m) :
    found'.length ≤ m + 1 ∧ ∀ v ∈ found', min m (found'.length - 1) ≤ (nb' v).length := by
  -- the node is not linked back
  have hsame : ∀ v ∈ found, nb' v = nb v := by
    intro v hv
    refine hr.left (fun heq => hin (heq ▸ hv)) fun _ => ?_
    have := hfull v hv
    omega
  have hclosed : ∀ v ∈ found, ∀ w ∈ nb' v, w ∈ found := by
    intro v hv w hw
    rw [hsame v hv] at hw
    exact hr.found_closed hv hw
  have hsub : found' ⊆ found := fun v hv => mem_of_closed hr.entry_found hclosed ((hmem' v).mp hv)
  have hlen := (hnodup'.subperm hsub).length_le
  refine ⟨Nat.le_trans hlen hfew, fun v hv => ?_⟩
  rw [hsame v (hsub hv)]
  have := hfull v (hsub hv)
  omega

end Few

/-- Linking one more node. -/
theorem Packed.step (h : Packed m entry done nb) (hr : Relinked m entry nb nb' id found sel) :
    Packed m entry (id :: done) nb' := by
  obtain ⟨hfew, hfull⟩ := h.few found hr.found_nodup hr.mem_found
  have hnew : ∀ v ∈ found, v = entry ∨ v ∈ done := fun v hv => mem_of_leads h.links ((hr.mem_found v).mp hv)
  refine ⟨fun v w hw => ?_, fun found' hnodup' hmem' => ?_⟩
  · rcases hr.mem_cases hw with rfl | hw
    · exact .inr List.mem_cons_self
    · by_cases hv : v = id
      · rw [hv, own_self] at hw
        exact (hnew w (hr.sel_found w hw)).imp_right (List.mem_cons_of_mem _)
      · rw [own_other hv] at hw
        exact (h.links v w hw).imp_right (List.mem_cons_of_mem _)
  · by_cases hin : id ∈ found
    · exact hr.few_again hfull hnodup' hmem' hfew hin
    · by_cases hroom : found.length ≤ m
      · exact hr.few_room hfull hnodup' hmem' hin hroom
      · exact hr.few_full hfull hnodup' hmem' hfew hin hroom

end Mesh
end Amind
