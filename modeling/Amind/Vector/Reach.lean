/-
# What a search can see

A search of the lowest layer goes on until it has found something, so it finds
an active node whenever links lead from where it starts to one
(`searchLayer_ne_nil`). It starts at the entry point, or at an active node it has
descended to.

The links of a removed node stay, but a new node is not linked to removed ones.
So when all nodes are removed a new one is cut off from the entry point, and
removing nodes can leave only such. `search_ne_nil` says that a search always
answers if neither happens.
-/
import Mathlib.Logic.Relation
import Amind.Vector.Shape

namespace Amind
namespace Vector
namespace HNSWIndex

open Amind.Core

variable {F : Type} {x : HNSWIndex F} {id : UInt64} {layer : ℕ}

/-! ### Searching until something is found -/

section Search

variable [Floats F] {query : List F} {ef : ℕ} {b : Beam F}

/-- Every node seen is to be expanded still, or all its neighbours are seen, but
for the node `c` that is being expanded. Nothing has been found. -/
structure Beam.Blind (x : HNSWIndex F) (layer : ℕ) (c : Option UInt64) (b : Beam F) : Prop where
  results : b.resultQueue = []
  inactive : ∀ id ∈ b.visited, x.contains id = false
  closed : ∀ id ∈ b.visited, some id = c ∨ (∃ r ∈ b.candidateQueue, r.id = id) ∨
    ∀ i ∈ x.neighbors id layer, i ∈ b.visited

/-- The nodes not seen yet and those to be expanded. -/
def Beam.left (x : HNSWIndex F) (b : Beam F) : ℕ :=
  (x.nodes.keys.toFinset \ b.visited.toFinset).card + b.candidateQueue.length

theorem length_push (r : SearchResult F) : ∀ l : List (SearchResult F), (push r l).length = l.length + 1
  | [] => rfl
  | y :: l => by
    unfold push
    split
    · rfl
    · rw [List.length_cons, length_push r l, List.length_cons]

theorem mem_push_self (r : SearchResult F) : ∀ l : List (SearchResult F), r ∈ push r l
  | [] => List.mem_cons_self
  | y :: l => by
    unfold push
    split
    · exact List.mem_cons_self
    · exact List.mem_cons_of_mem _ (mem_push_self r l)

theorem mem_push_of_mem {r y : SearchResult F} : ∀ {l : List (SearchResult F)}, y ∈ l → y ∈ push r l
  | z :: l, h => by
    unfold push
    split
    · exact List.mem_cons_of_mem _ h
    · rcases List.mem_cons.mp h with rfl | h
      · exact List.mem_cons_self
      · exact List.mem_cons_of_mem _ (mem_push_of_mem h)

theorem push_ne_nil (r : SearchResult F) (l : List (SearchResult F)) : push r l ≠ [] :=
  List.ne_nil_of_mem (mem_push_self r l)

/-- What has been found is not lost. -/
theorem visit_ne_nil (hef : 1 ≤ ef) {filter : UInt64 → Bool} (h : b.resultQueue ≠ []) (id : UInt64) :
    (x.visit query filter ef b id).resultQueue ≠ [] := by
  unfold visit
  split
  · exact h
  · split
    · exact h
    · dsimp only
      split
      · split
        · dsimp only
          split
          · rename_i hlen
            -- at least one is left of more than `ef`
            refine List.ne_nil_of_length_pos ?_
            rw [List.length_dropLast]
            omega
          · exact push_ne_nil _ _
        · exact h
      · exact h

theorem expand_ne_nil (hef : 1 ≤ ef) {filter : UInt64 → Bool} : ∀ (steps : ℕ) (b : Beam F), b.resultQueue ≠ [] →
    (x.expand query filter ef layer steps b).resultQueue ≠ []
  | 0, _, h => h
  | steps + 1, b, h => by
    unfold expand
    split
    · exact h
    · split
      · exact h
      · refine expand_ne_nil hef steps _ ?_
        exact List.foldlRecOn (motive := fun b : Beam F => b.resultQueue ≠ []) _ _ h fun b hb id _ =>
          visit_ne_nil hef hb id

omit [Floats F] in
/-- One node less to see. -/
theorem Beam.left_cons_le (b : Beam F) (id : UInt64) (results : List (SearchResult F)) :
    Beam.left x ⟨b.candidateQueue, results, id :: b.visited⟩ ≤ b.left x := by
  refine Nat.add_le_add_right (Finset.card_le_card ?_) _
  refine Finset.sdiff_subset_sdiff le_rfl fun i hi => ?_
  exact List.mem_toFinset.mpr (List.mem_cons_of_mem _ (List.mem_toFinset.mp hi))

/-- One node less to see, one more to expand. -/
theorem Beam.left_push_le {n : Node F} (hn : x.getNode id = some n) (hnew : id ∉ b.visited) (r : SearchResult F)
    (results : List (SearchResult F)) : Beam.left x ⟨push r b.candidateQueue, results, id :: b.visited⟩ ≤ b.left x := by
  have hkey : id ∈ x.nodes.keys.toFinset \ b.visited.toFinset := by
    rw [Finset.mem_sdiff, List.mem_toFinset, List.mem_toFinset]
    exact ⟨AList.lookup_isSome.mp (Option.isSome_of_eq_some hn), hnew⟩
  have hcard := Finset.card_erase_of_mem hkey
  have hpos := Finset.card_pos.mpr ⟨id, hkey⟩
  unfold Beam.left
  dsimp only
  rw [List.toFinset_cons, Finset.sdiff_insert, length_push]
  omega

theorem Beam.left_visit {filter : UInt64 → Bool} (b : Beam F) (id : UInt64) :
    (x.visit query filter ef b id).left x ≤ b.left x := by
  unfold HNSWIndex.visit
  split
  · exact le_rfl
  · rename_i hnew
    split
    · exact b.left_cons_le id _
    · rename_i n hn
      dsimp only
      split
      · split
        · exact Beam.left_push_le hn hnew _ _
        · exact Beam.left_push_le hn hnew _ _
      · exact b.left_cons_le id _

/-- Looking at a neighbour: it is found, or the beam stays blind and the
neighbour is seen. -/
theorem Beam.Blind.visit (hef : 1 ≤ ef) {c : Option UInt64} (h : b.Blind x layer c) (id : UInt64) :
    (x.visit query (fun _ => true) ef b id).resultQueue ≠ [] ∨
      ((x.visit query (fun _ => true) ef b id).Blind x layer c ∧
        (x.visit query (fun _ => true) ef b id).left x ≤ b.left x ∧
        id ∈ (x.visit query (fun _ => true) ef b id).visited ∧
        ∀ i ∈ b.visited, i ∈ (x.visit query (fun _ => true) ef b id).visited) := by
  unfold HNSWIndex.visit
  split
  · rename_i hseen
    exact .inr ⟨h, le_rfl, hseen, fun i hi => hi⟩
  · rename_i hnew
    split
    · rename_i hn
      -- a name without a node has no neighbours
      have hnone : x.neighbors id layer = [] := by
        unfold neighbors
        rw [hn]
        rfl
      refine .inr ⟨⟨h.results, fun i hi => ?_, fun i hi => ?_⟩, ?_, List.mem_cons_self,
        fun i hi => List.mem_cons_of_mem _ hi⟩
      · rcases List.mem_cons.mp hi with rfl | hi
        · rw [contains, hn]
          rfl
        · exact h.inactive i hi
      · rcases List.mem_cons.mp hi with rfl | hi
        · rw [hnone]
          exact .inr (.inr fun j hj => absurd hj List.not_mem_nil)
        · exact (h.closed i hi).imp_right (Or.imp_right fun hall j hj => List.mem_cons_of_mem _ (hall j hj))
      · exact b.left_cons_le id _
    · rename_i n hn
      dsimp only
      rw [if_pos (.inl (by rw [h.results]; exact hef))]
      split
      · left
        dsimp only
        split
        · rename_i hlen
          refine List.ne_nil_of_length_pos ?_
          rw [List.length_dropLast]
          omega
        · exact push_ne_nil _ _
      · rename_i hmark
        refine .inr ⟨⟨h.results, fun i hi => ?_, fun i hi => ?_⟩, ?_, List.mem_cons_self,
          fun i hi => List.mem_cons_of_mem _ hi⟩
        · rcases List.mem_cons.mp hi with rfl | hi
          · rw [Bool.eq_false_iff, Ne, contains_of_getNode hn]
            exact fun hd => hmark ⟨hd, rfl⟩
          · exact h.inactive i hi
        · rcases List.mem_cons.mp hi with rfl | hi
          · exact .inr (.inl ⟨_, mem_push_self _ _, rfl⟩)
          · rcases h.closed i hi with hc | ⟨r, hr, hid⟩ | hall
            · exact .inl hc
            · exact .inr (.inl ⟨r, mem_push_of_mem hr, hid⟩)
            · exact .inr (.inr fun j hj => List.mem_cons_of_mem _ (hall j hj))
        · exact Beam.left_push_le hn hnew _ _

/-- Looking at neighbours one after the other. -/
theorem Beam.Blind.visits (hef : 1 ≤ ef) {c : Option UInt64} : ∀ (ids : List UInt64) (b : Beam F), b.Blind x layer c →
    (ids.foldl (x.visit query (fun _ => true) ef) b).resultQueue ≠ [] ∨
      ((ids.foldl (x.visit query (fun _ => true) ef) b).Blind x layer c ∧
        (ids.foldl (x.visit query (fun _ => true) ef) b).left x ≤ b.left x ∧
        (∀ i ∈ ids, i ∈ (ids.foldl (x.visit query (fun _ => true) ef) b).visited) ∧
        ∀ i ∈ b.visited, i ∈ (ids.foldl (x.visit query (fun _ => true) ef) b).visited)
  | [], _, h => .inr ⟨h, le_rfl, fun i hi => absurd hi List.not_mem_nil, fun i hi => hi⟩
  | id :: ids, b, h => by
    rw [List.foldl_cons]
    rcases h.visit hef id with hfound | ⟨hb, hleft, hid, hkeep⟩
    · left
      exact List.foldlRecOn (motive := fun b : Beam F => b.resultQueue ≠ []) _ _ hfound fun b hb i _ =>
        visit_ne_nil hef hb i
    · rcases Beam.Blind.visits hef ids _ hb with hfound | ⟨hb', hleft', hids, hkeep'⟩
      · exact .inl hfound
      · refine .inr ⟨hb', hleft'.trans hleft, fun i hi => ?_, fun i hi => hkeep' i (hkeep i hi)⟩
        rcases List.mem_cons.mp hi with rfl | hi
        · exact hkeep' _ hid
        · exact hids i hi

/-- With enough steps a search that finds nothing has seen all there is to see:
a set of inactive nodes that no link leaves. -/
theorem Beam.Blind.expand (hef : 1 ≤ ef) : ∀ (steps : ℕ) (b : Beam F), b.Blind x layer none → b.left x ≤ steps →
    (x.expand query (fun _ => true) ef layer steps b).resultQueue = [] →
    ∃ seen : List UInt64, (∀ id ∈ b.visited, id ∈ seen) ∧ (∀ id ∈ seen, x.contains id = false) ∧
      ∀ id ∈ seen, ∀ i ∈ x.neighbors id layer, i ∈ seen := by
  have hdone : ∀ b : Beam F, b.Blind x layer none → b.candidateQueue = [] →
      ∃ seen : List UInt64, (∀ id ∈ b.visited, id ∈ seen) ∧ (∀ id ∈ seen, x.contains id = false) ∧
        ∀ id ∈ seen, ∀ i ∈ x.neighbors id layer, i ∈ seen := by
    intro b h hq
    refine ⟨b.visited, fun id hid => hid, h.inactive, fun id hid => ?_⟩
    rcases h.closed id hid with hc | ⟨r, hr, -⟩ | hall
    · cases hc
    · rw [hq] at hr
      cases hr
    · exact hall
  intro steps
  induction steps with
  | zero =>
    intro b h hleft _
    refine hdone b h (List.length_eq_zero_iff.mp ?_)
    unfold Beam.left at hleft
    omega
  | succ steps ih =>
    intro b h hleft hnil
    unfold HNSWIndex.expand at hnil
    split at hnil
    · rename_i hq
      exact hdone b h hq
    · rename_i closest queue hq
      rw [if_neg (by rw [h.results]; simp)] at hnil
      have hopen : ({ b with candidateQueue := queue } : Beam F).Blind x layer (some closest.id) := by
        refine ⟨h.results, h.inactive, fun id hid => ?_⟩
        rcases h.closed id hid with hc | ⟨r, hr, rfl⟩ | hall
        · cases hc
        · rw [hq] at hr
          rcases List.mem_cons.mp hr with rfl | hr
          · exact .inl rfl
          · exact .inr (.inl ⟨r, hr, rfl⟩)
        · exact .inr (.inr hall)
      rcases hopen.visits hef (x.neighbors closest.id layer) with hfound | ⟨hb, hleft', hids, hkeep⟩
      · exact absurd hnil (expand_ne_nil hef steps _ hfound)
      · have hclosed : Beam.Blind x layer none
            ((x.neighbors closest.id layer).foldl (x.visit query (fun _ => true) ef) { b with candidateQueue := queue }) := by
          refine ⟨hb.results, hb.inactive, fun id hid => ?_⟩
          rcases hb.closed id hid with hc | hrest
          · rw [Option.some.inj hc]
            exact .inr (.inr hids)
          · exact .inr hrest
        have hless : ({ b with candidateQueue := queue } : Beam F).left x + 1 = b.left x := by
          unfold Beam.left
          rw [hq, List.length_cons, Nat.add_assoc]
        obtain ⟨seen, hseen, hinactive, hlinks⟩ := ih _ hclosed (by omega) hnil
        exact ⟨seen, fun id hid => hseen id (hkeep id hid), hinactive, hlinks⟩

end Search

/-! ### Where links lead -/

/-- Links of the lowest layer lead from one id to the other. -/
def Leads (x : HNSWIndex F) : UInt64 → UInt64 → Prop := Relation.ReflTransGen fun a b => b ∈ x.neighbors a 0

/-- If anything is active, links lead from the entry point to something active. -/
def Sighted (x : HNSWIndex F) : Prop :=
  (∃ id, x.contains id = true) → ∃ id, x.Leads x.entryPointId id ∧ x.contains id = true

section Find

variable [Floats F] {query : List F} {ef : ℕ}

/-- **A search finds something if links lead to an active node.** -/
theorem searchLayer_ne_nil (hef : 1 ≤ ef) {e id : UInt64} {n : Node F} (hn : x.getNode e = some n)
    (hlead : x.Leads e id) (hid : x.contains id = true) : x.searchLayer query (fun _ => true) ef [e] 0 ≠ [] := by
  intro hnil
  have hstart : [e].foldl (x.enter query fun _ => true) {} = x.enter query (fun _ => true) {} e := rfl
  have hexpand : (x.expand query (fun _ => true) ef 0 (x.nodes.keys.length + 1)
      (x.enter query (fun _ => true) {} e)).resultQueue = [] := hnil
  by_cases hactive : x.contains e = true
  · refine expand_ne_nil hef _ _ ?_ hexpand
    unfold enter
    rw [hn]
    dsimp only
    rw [if_pos ⟨(contains_of_getNode hn).mp hactive, rfl⟩]
    exact push_ne_nil _ _
  · have hbeam : x.enter query (fun _ => true) {} e =
        { candidateQueue := [⟨e, x.config.computeDistance query n.vector⟩], resultQueue := [], visited := [e] } := by
      unfold enter
      rw [hn]
      dsimp only
      rw [if_neg fun h => hactive ((contains_of_getNode hn).mpr h.1)]
      rfl
    rw [hbeam] at hexpand
    obtain ⟨seen, hseen, hinactive, hlinks⟩ := Beam.Blind.expand hef _ _ ⟨rfl, fun i hi => by
        rw [List.mem_singleton.mp hi]
        exact Bool.eq_false_iff.mpr hactive,
          fun i hi => .inr (.inl ⟨_, List.mem_cons_self, (List.mem_singleton.mp hi).symm⟩)⟩
      (by
        unfold Beam.left
        have hcard := Finset.card_le_card (Finset.sdiff_subset (s := x.nodes.keys.toFinset) (t := [e].toFinset))
        have hkeys := List.toFinset_card_le x.nodes.keys
        simp only [List.length_singleton]
        omega) hexpand
    have hall : ∀ i, x.Leads e i → i ∈ seen := by
      intro i hi
      induction hi with
      | refl => exact hseen e List.mem_cons_self
      | tail _ hstep ih => exact hlinks _ ih _ hstep
    rw [hinactive id (hall id hlead)] at hid
    cases hid

/-- Descending ends where it has started, or at an active node. -/
theorem descend_eq_or_contains : ∀ (layers : List ℕ) (e : UInt64),
    layers.foldl (x.greedyClosest query) e = e ∨ x.contains (layers.foldl (x.greedyClosest query) e) = true := by
  have hpass : ∀ (layer : ℕ) (entry : UInt64 × F), (x.greedyPass query layer entry).1.1 = entry.1 ∨
      x.contains (x.greedyPass query layer entry).1.1 = true := by
    intro layer entry
    unfold greedyPass
    refine List.foldlRecOn (motive := fun best : (UInt64 × F) × Bool => best.1.1 = entry.1 ∨ x.contains best.1.1 = true)
      _ _ (.inl rfl) ?_
    intro best hbest id _
    split
    · rename_i n hn
      split
      · exact hbest
      · rename_i hd
        split
        · exact .inr ((contains_of_getNode hn).mpr (Bool.eq_false_iff.mpr hd))
        · exact hbest
    · exact hbest
  have hloop : ∀ (layer passes : ℕ) (entry : UInt64 × F), x.greedyLoop query layer passes entry = entry.1 ∨
      x.contains (x.greedyLoop query layer passes entry) = true := by
    intro layer passes
    induction passes with
    | zero => exact fun entry => .inl rfl
    | succ passes ih =>
      intro entry
      unfold greedyLoop
      split
      · rcases ih (x.greedyPass query layer entry).1 with h | h
        · rw [h]
          exact hpass layer entry
        · exact .inr h
      · exact hpass layer entry
  intro layers
  induction layers with
  | nil => exact fun e => .inl rfl
  | cons l layers ih =>
    intro e
    have hclosest : x.greedyClosest query e l = e ∨ x.contains (x.greedyClosest query e l) = true := by
      unfold greedyClosest
      split
      · exact .inl rfl
      · exact hloop l _ _
    rw [List.foldl_cons]
    rcases ih (x.greedyClosest query e l) with h | h
    · rw [h]
      exact hclosest
    · exact .inr h

/-- A search of an index that has its shape and is sighted. -/
theorem Shaped.finds (hx : x.Shaped) (hs : x.Sighted) (hactive : ∃ id, x.contains id = true) {topK : ℕ}
    (hk : 1 ≤ topK) (hq : query.length = x.config.dimension) : x.search query topK ≠ [] := by
  obtain ⟨id, hid⟩ := hactive
  obtain ⟨n, hn, -⟩ := Option.map_eq_some_iff.mp (contains_iff.mp hid)
  have hkeys := keys_ne_nil hn
  have hcount : x.activeCount ≠ 0 := by
    rw [hx.active]
    exact Finset.card_ne_zero_of_mem (mem_activeIds.mpr hid)
  have hef : 1 ≤ max topK x.config.efSearch := hk.trans (le_max_left _ _)
  unfold search
  rw [if_neg (not_not.mpr hq), if_neg (not_or.mpr ⟨hkeys, hcount⟩)]
  dsimp only
  have hfound : x.searchLayer query (fun _ => true) (max topK x.config.efSearch)
      [(layersDown x.maxLevel 0).foldl (x.greedyClosest query) x.entryPointId] 0 ≠ [] := by
    rcases descend_eq_or_contains (x := x) (layersDown x.maxLevel 0) x.entryPointId with h | h
    · rw [h]
      obtain ⟨e, he, -⟩ := hx.entry hkeys
      obtain ⟨i, hlead, hi⟩ := hs ⟨id, hid⟩
      exact searchLayer_ne_nil hef he hlead hi
    · obtain ⟨m, hm, -⟩ := Option.map_eq_some_iff.mp (contains_iff.mp h)
      exact searchLayer_ne_nil hef hm Relation.ReflTransGen.refl h
  obtain ⟨r, l, hl⟩ := List.exists_cons_of_ne_nil hfound
  rw [hl]
  obtain ⟨k, rfl⟩ := Nat.exists_eq_succ_of_ne_zero (Nat.one_le_iff_ne_zero.mp hk)
  exact List.cons_ne_nil _ _

end Find

/-! ### What keeps the sight -/

section Keep

variable [Floats F] {vector : List F} {newLevel : ℕ}

omit [Floats F] in
theorem neighbors_congr {x' : HNSWIndex F} (h : x'.getNode id = x.getNode id) :
    x'.neighbors id layer = x.neighbors id layer := by
  unfold neighbors
  rw [h]

/-- A marked node is not touched when others are linked. -/
theorem getNode_linkBack {a neighborId : UInt64} {maxConn : ℕ} {n : Node F} (hn : x.getNode a = some n)
    (hd : n.deleted = true) : (linkBack id layer maxConn x neighborId).getNode a = some n := by
  unfold linkBack
  split
  · exact hn
  · rename_i m hm
    split
    · exact hn
    · rename_i hnot
      rw [getNode_modifyNode, if_neg]
      · exact hn
      · rintro rfl
        rw [hn] at hm
        rw [← Option.some.inj hm] at hnot
        exact hnot (.inl hd)

theorem getNode_insertLayer {a : UInt64} {n newNode : Node F} {st : HNSWIndex F × List UInt64}
    (hn : st.1.getNode a = some n) (hd : n.deleted = true) (hne : a ≠ id) :
    (insertLayer id newNode st layer).1.getNode a = some n := by
  rw [insertLayer_eq]
  refine List.foldlRecOn (motive := fun x' : HNSWIndex F => x'.getNode a = some n) _ _ ?_
    fun x' hx' i _ => getNode_linkBack hx' hd
  unfold rewire
  rw [getNode_modifyNode, if_neg hne]
  unfold withNode
  split
  · exact hn
  · exact (AList.lookup_insert_ne hne).trans hn

theorem getNode_insertLayers {a : UInt64} {n newNode : Node F} (hd : n.deleted = true) (hne : a ≠ id) :
    ∀ (layers : List ℕ) (st : HNSWIndex F × List UInt64), st.1.getNode a = some n →
      (layers.foldl (insertLayer id newNode) st).1.getNode a = some n
  | [], _, hn => hn
  | _ :: layers, _, hn => getNode_insertLayers hd hne layers _ (getNode_insertLayer hn hd hne)

omit [Floats F] in
/-- The way to the first active node, over marked ones. -/
theorem leads_first {e i : UInt64} (hlead : x.Leads e i) (hi : x.contains i = true) :
    ∃ j, x.contains j = true ∧ Relation.ReflTransGen (fun a b => x.contains a = false ∧ b ∈ x.neighbors a 0) e j := by
  induction hlead using Relation.ReflTransGen.head_induction_on with
  | refl => exact ⟨i, hi, .refl⟩
  | @head a c hstep _ ih =>
    by_cases ha : x.contains a = true
    · exact ⟨a, ha, .refl⟩
    · obtain ⟨j, hj, hway⟩ := ih
      exact ⟨j, hj, hway.head ⟨Bool.eq_false_iff.mpr ha, hstep⟩⟩

omit [Floats F] in
/-- Where the links are the same, and the entry point, and all that is active
stays so. -/
theorem Sighted.of_same {x' : HNSWIndex F} (hs : x.Sighted) (hentry : x'.entryPointId = x.entryPointId)
    (hlinks : ∀ a, x.contains a = false → ∀ b ∈ x.neighbors a 0, b ∈ x'.neighbors a 0)
    (hkeep : ∀ a, x.contains a = true → x'.contains a = true) (hactive : ∃ a, x.contains a = true) : x'.Sighted := by
  intro _
  obtain ⟨i, hlead, hi⟩ := hs hactive
  obtain ⟨j, hj, hway⟩ := leads_first hlead hi
  refine ⟨j, ?_, hkeep j hj⟩
  rw [hentry]
  exact Relation.ReflTransGen.mono (fun a b h => hlinks a h.1 b h.2) _ _ hway

inductive Op (F : Type)
  | insert (id : UInt64) (vector : List F) (newLevel : ℕ)
  | remove (id : UInt64)

def step (x : HNSWIndex F) : Op F → HNSWIndex F
  | .insert id vector newLevel => x.insert id vector newLevel
  | .remove id => x.remove id

omit [Floats F] in
/-- What must not happen: with nothing active, an insertion that links do not lead
to, of a node that does not become the entry point either; and the removal of the
last active node they lead to while others are active. -/
def KeepsSight (x : HNSWIndex F) : Op F → Prop
  | .insert id vector newLevel => vector.length = x.config.dimension → x.nodes.keys ≠ [] →
      (∀ i, x.contains i = false) → x.maxLevel < newLevel ∧ x.getNode id = none ∨ x.Leads x.entryPointId id
  | .remove id => (∃ i, i ≠ id ∧ x.contains i = true) → ∃ i, i ≠ id ∧ x.contains i = true ∧ x.Leads x.entryPointId i

omit [Floats F] in
theorem neighbors_setNode {n n' : Node F} {count : ℕ} (hn : x.getNode id = some n) (hc : n'.connections = n.connections)
    (a : UInt64) : (x.setNode id n' count).neighbors a layer = x.neighbors a layer := by
  unfold neighbors
  rw [getNode_setNode]
  split
  · rename_i h
    rw [h, hn, Option.map_some, Option.map_some, hc]
  · rfl

/-- An id that has a node: the node gets the vector. -/
theorem insert_again {n : Node F} (hdim : vector.length = x.config.dimension) (hn : x.getNode id = some n) :
    x.insert id vector newLevel = x.setNode id { n with vector := vector, deleted := false }
      (if n.deleted then x.activeCount + 1 else x.activeCount) := by
  unfold HNSWIndex.insert
  rw [if_neg (not_not.mpr hdim), hn]
  rfl

/-- The first node is the entry point, and later one that is above all. -/
theorem entryPointId_insert (hdim : vector.length = x.config.dimension) (hn : x.getNode id = none) :
    (x.insert id vector newLevel).entryPointId =
      if x.nodes.keys = [] ∨ x.maxLevel < newLevel then id else x.entryPointId := by
  unfold HNSWIndex.insert
  rw [if_neg (not_not.mpr hdim), hn]
  dsimp only
  by_cases hkeys : x.nodes.keys = []
  · rw [if_pos hkeys, if_pos (.inl hkeys)]
  · rw [if_neg hkeys]
    simp only [hkeys, false_or]

/-- A marked node keeps its links, and a name without a node has none. -/
theorem neighbors_insert_marked (hdim : vector.length = x.config.dimension) (hn : x.getNode id = none)
    (hkeys : x.nodes.keys ≠ []) {a b : UInt64} (ha : x.contains a = false) (hb : b ∈ x.neighbors a 0) :
    b ∈ (x.insert id vector newLevel).neighbors a 0 := by
  have hsame : (x.insert id vector newLevel).getNode a = x.getNode a := by
    cases hna : x.getNode a with
    | none =>
      unfold neighbors at hb
      rw [hna] at hb
      cases hb
    | some m =>
      have hd : m.deleted = true := by
        rw [contains, hna, Option.any_some, Bool.not_eq_false'] at ha
        exact ha
      have hne : a ≠ id := by
        rintro rfl
        rw [hn] at hna
        cases hna
      unfold HNSWIndex.insert
      rw [if_neg (not_not.mpr hdim), hn]
      dsimp only
      rw [if_neg hkeys]
      exact getNode_insertLayers hd hne _ _ hna
  rw [neighbors_congr hsame]
  exact hb

omit [Floats F] in
/-- Links lead to nodes only. -/
theorem getNode_of_leads (hx : x.Shaped) (hkeys : x.nodes.keys ≠ []) (hlead : x.Leads x.entryPointId id) :
    ∃ n, x.getNode id = some n := by
  rcases Relation.ReflTransGen.cases_tail hlead with h | ⟨c, -, hc⟩
  · obtain ⟨e, he, -⟩ := hx.entry hkeys
    exact ⟨e, h ▸ he⟩
  · obtain ⟨m, hm, -⟩ := hx.linked.neighbors hc
    exact ⟨m, hm⟩

/-- An id that has a node is inserted again. -/
theorem Sighted.insert_again (hx : x.Shaped) (hs : x.Sighted) (hk : x.KeepsSight (.insert id vector newLevel))
    (hdim : vector.length = x.config.dimension) {n : Node F} (hn : x.getNode id = some n) :
    (x.insert id vector newLevel).Sighted := by
  have heq : x.insert id vector newLevel = _ := HNSWIndex.insert_again hdim hn
  have hentry : (x.insert id vector newLevel).entryPointId = x.entryPointId := by
    rw [heq]
    rfl
  have hlinks : ∀ a, (x.insert id vector newLevel).neighbors a 0 = x.neighbors a 0 := by
    intro a
    rw [heq, neighbors_setNode hn]
    rfl
  by_cases hactive : ∃ a, x.contains a = true
  · exact hs.of_same hentry (fun a _ b hb => (hlinks a).symm ▸ hb)
      (fun a ha => (contains_insert hx.rooted).mpr (.inr ha)) hactive
  · -- nothing was active, and links lead to the id
    intro _
    refine ⟨id, ?_, (contains_insert hx.rooted).mpr (.inl ⟨rfl, hdim⟩)⟩
    have hlead : x.Leads x.entryPointId id := by
      rcases hk hdim (keys_ne_nil hn) fun i => Bool.eq_false_iff.mpr fun hi => hactive ⟨i, hi⟩ with ⟨-, hnone⟩ | h
      · rw [hn] at hnone
        cases hnone
      · exact h
    rw [hentry]
    exact Relation.ReflTransGen.mono (fun a b hb => (hlinks a).symm ▸ hb) _ _ hlead

/-- A node that is new. -/
theorem Sighted.insert_new (hx : x.Shaped) (hs : x.Sighted) (hk : x.KeepsSight (.insert id vector newLevel))
    (hdim : vector.length = x.config.dimension) (hn : x.getNode id = none) :
    (x.insert id vector newLevel).Sighted := by
  have hentry : (x.insert id vector newLevel).entryPointId = _ := entryPointId_insert hdim hn
  by_cases hfirst : x.nodes.keys = [] ∨ x.maxLevel < newLevel
  · -- it is the entry point itself
    intro _
    refine ⟨id, ?_, (contains_insert hx.rooted).mpr (.inl ⟨rfl, hdim⟩)⟩
    rw [hentry, if_pos hfirst]
    exact .refl
  · rw [if_neg hfirst] at hentry
    obtain ⟨hkeys, hlow⟩ := not_or.mp hfirst
    by_cases hactive : ∃ a, x.contains a = true
    · exact hs.of_same hentry (fun a ha b hb => neighbors_insert_marked hdim hn hkeys ha hb)
        (fun a ha => (contains_insert hx.rooted).mpr (.inr ha)) hactive
    · exfalso
      rcases hk hdim hkeys fun i => Bool.eq_false_iff.mpr fun hi => hactive ⟨i, hi⟩ with ⟨hhigh, -⟩ | hlead
      · exact hlow hhigh
      · obtain ⟨m, hm⟩ := getNode_of_leads hx hkeys hlead
        rw [hn] at hm
        cases hm

theorem Sighted.insert (hx : x.Shaped) (hs : x.Sighted) (hk : x.KeepsSight (.insert id vector newLevel)) :
    (x.insert id vector newLevel).Sighted := by
  by_cases hdim : vector.length = x.config.dimension
  · cases hn : x.getNode id with
    | some n => exact hs.insert_again hx hk hdim hn
    | none => exact hs.insert_new hx hk hdim hn
  · have hsame : x.insert id vector newLevel = x := by
      unfold HNSWIndex.insert
      rw [if_pos hdim]
    rw [hsame]
    exact hs

omit [Floats F] in
theorem sighted_remove (hk : x.KeepsSight (.remove id)) : (x.remove id).Sighted := by
  rintro ⟨i, hi⟩
  obtain ⟨hne, hin⟩ := contains_remove.mp hi
  obtain ⟨j, hj, hact, hlead⟩ := hk ⟨i, hne, hin⟩
  refine ⟨j, ?_, contains_remove.mpr ⟨hj, hact⟩⟩
  have hsame : (x.remove id).entryPointId = x.entryPointId ∧ ∀ a, (x.remove id).neighbors a 0 = x.neighbors a 0 := by
    unfold HNSWIndex.remove
    split
    · exact ⟨rfl, fun _ => rfl⟩
    · rename_i n hn
      split
      · exact ⟨rfl, fun _ => rfl⟩
      · exact ⟨rfl, neighbors_setNode hn rfl⟩
  rw [hsame.1]
  exact Relation.ReflTransGen.mono (fun a b hb => (hsame.2 a).symm ▸ hb) _ _ hlead

/-- **A search answers in every run that keeps the sight**, in every state that
has an active id. -/
theorem search_ne_nil (config : HNSWConfig F) (ops : List (Op F))
    (h : Run.Along step KeepsSight { config := config } ops)
    (hactive : ∃ id, (Run.run step { config := config } ops).contains id = true)
    (query : List F) (hq : query.length = config.dimension) (topK : ℕ) (hk : 1 ≤ topK) :
    (Run.run step { config := config } ops).search query topK ≠ [] := by
  have hinv := Run.run_inv step (I := fun _ x => x.Shaped ∧ x.Sighted ∧ x.config = config) (fun _ x op hi hc => by
    obtain ⟨hx, hs, hconfig⟩ := hi
    cases op with
    | insert id v l => exact ⟨hx.insert, hs.insert hx hc, config_insert.trans hconfig⟩
    | remove id => exact ⟨hx.remove id, sighted_remove hc, config_remove.trans hconfig⟩) ops [] { config := config }
    ⟨shaped_new config, fun hnone => absurd hnone.choose_spec Bool.false_ne_true, rfl⟩ h
  obtain ⟨hx, hs, hconfig⟩ := hinv
  exact hx.finds hs hactive hk (hq.trans (congrArg HNSWConfig.dimension hconfig.symm))

end Keep

/-- Id 1 is removed, and its links still lead to id 2. -/
theorem search_second :
    (Run.run step { config := TieredIndex.line.hot.config } [.insert 1 [5] 0, .insert 2 [6] 0,
      .remove 1]).search [7] 1 ≠ [] := by
  have hlead : (Run.run step { config := TieredIndex.line.hot.config } [.insert 1 [5] 0, .insert 2 [6] 0]).Leads 1 2 :=
    .single (by decide)
  refine search_ne_nil TieredIndex.line.hot.config _ ?_ ⟨2, by decide⟩ [7] rfl 1 le_rfl
  refine ⟨fun _ h => absurd rfl h, fun _ _ h => ?_, fun _ => ?_, trivial⟩
  · exact absurd (h 1) (by decide)
  · exact ⟨2, by decide, by decide, hlead⟩

/-- Id 2 is inserted when id 1 is the entry point and removed: it is active and
no search finds it. -/
theorem search_blind :
    (Run.run step { config := TieredIndex.line.hot.config } [.insert 1 [5] 0, .remove 1,
      .insert 2 [6] 0]).contains 2 = true ∧
    (Run.run step { config := TieredIndex.line.hot.config } [.insert 1 [5] 0, .remove 1,
      .insert 2 [6] 0]).search [6] 1 = [] := by
  decide

end HNSWIndex
end Vector
end Amind
