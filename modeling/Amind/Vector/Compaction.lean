/-
# What compaction leaves findable

Compaction puts the survivors without links and then links one after the other
to the nearest of what a search from the entry point finds. A node that it
links is searched for in the graph that is there so far; it is linked back where
a list has room, and lists are never cleared for it. So on the lowest layer the
survivors are linked as in `Lib/Mesh`.

`compact_findable` says what comes of it, when the searches have room for all
survivors: with room for them in the lists of the lowest layer links lead to all
of them and searches find them all; with more than one survivor too many links
never lead to all.
-/
import Amind.Lib.Mesh
import Amind.Vector.WideSearch

namespace Amind
namespace Vector

open Amind.Core

namespace HNSWIndex

variable {F : Type} {x x' : HNSWIndex F} {id : UInt64} {layer m : ℕ} {done : List UInt64}

/-! ### The lists of the lowest layer -/

/-- No node is marked, and all have a list in the lowest layer. -/
def Plain (x : HNSWIndex F) : Prop :=
  ∀ id n, x.getNode id = some n → n.deleted = false ∧ 0 ≤ n.level ∧ 1 ≤ n.connections.length

theorem Plain.rewired (h : x.Plain) (hr : Rewired x x') : x'.Plain := by
  intro id n' hn'
  obtain ⟨n, hn, hf⟩ := hr.node hn'
  obtain ⟨hd, hl, hc⟩ := h id n hn
  have hlevel : n'.level = n.level := frame_level hf
  have hdel : n'.deleted = n.deleted := congrArg (·.2.2.1) hf
  have hlen : n'.connections.length = n.connections.length := congrArg (·.2.2.2) hf
  exact ⟨hdel ▸ hd, hlevel ▸ hl, hlen ▸ hc⟩

theorem Plain.contains (h : x.Plain) {n : Node F} (hn : x.getNode id = some n) : x.contains id = true :=
  (contains_of_getNode hn).mpr (h id n hn).1

theorem neighbors_of_getNode {n : Node F} (hn : x.getNode id = some n) :
    x.neighbors id layer = n.connections.getD layer [] := by
  unfold neighbors
  rw [hn]
  rfl

/-- Setting a list of the lowest layer. -/
theorem neighbors_rewire (h : x.Plain) {n : Node F} (hn : x.getNode id = some n) (conns : List UInt64) (v : UInt64) :
    (rewire id 0 conns x).neighbors v 0 = if v = id then conns else x.neighbors v 0 := by
  by_cases hv : v = id
  · subst hv
    have hget : (rewire v 0 conns x).getNode v = some { n with connections := n.connections.set 0 conns } := by
      unfold rewire
      rw [getNode_modifyNode, if_pos rfl, hn]
      rfl
    have hlen := (h v n hn).2.2
    rw [neighbors_of_getNode hget, if_pos rfl, List.getD_eq_getElem?_getD, List.getElem?_set_self (by omega)]
    rfl
  · have hget : (rewire id 0 conns x).getNode v = x.getNode v := by
      unfold rewire
      rw [getNode_modifyNode, if_neg hv]
    rw [if_neg hv, neighbors_congr hget]

/-- Setting a list of another layer. -/
theorem neighbors_rewire_upper (hl : layer ≠ 0) (conns : List UInt64) (v : UInt64) :
    (rewire id layer conns x).neighbors v 0 = x.neighbors v 0 := by
  by_cases hv : v = id
  · subst hv
    unfold neighbors rewire
    rw [getNode_modifyNode, if_pos rfl]
    cases x.getNode v with
    | none => rfl
    | some n => simp [List.getD_eq_getElem?_getD, List.getElem?_set_ne hl]
  · have hget : (rewire id layer conns x).getNode v = x.getNode v := by
      unfold rewire
      rw [getNode_modifyNode, if_neg hv]
    exact neighbors_congr hget

/-- Linking back sets a list, or nothing. -/
theorem linkReverse_cases (x : HNSWIndex F) (id : UInt64) (layer m : ℕ) (w : UInt64) :
    linkReverse id layer m x w = x ∨
      ((x.neighbors w layer).length < m ∧
        linkReverse id layer m x w = rewire w layer (x.neighbors w layer ++ [id]) x) := by
  unfold linkReverse
  cases hn : x.getNode w with
  | none => exact .inl rfl
  | some n =>
    dsimp only
    rw [neighbors_of_getNode hn]
    split
    · rename_i hroom
      refine .inr ⟨hroom.2, ?_⟩
      unfold rewire modifyNode
      rw [hn]
    · exact .inl rfl

theorem rewired_linkReverses : ∀ (l : List UInt64) (x : HNSWIndex F), Rewired x (l.foldl (linkReverse id layer m) x)
  | [], x => .refl x
  | w :: l, x => by
    rw [List.foldl_cons]
    refine Rewired.trans ?_ (rewired_linkReverses l _)
    rcases linkReverse_cases x id layer m w with h | ⟨-, h⟩
    · rw [h]
      exact .refl x
    · rw [h]
      exact rewired_rewire

/-- In another layer that changes no list of the lowest. -/
theorem neighbors_linkReverses_upper (hl : layer ≠ 0) (v : UInt64) : ∀ (l : List UInt64) (x : HNSWIndex F),
    (l.foldl (linkReverse id layer m) x).neighbors v 0 = x.neighbors v 0
  | [], _ => rfl
  | w :: l, x => by
    rw [List.foldl_cons, neighbors_linkReverses_upper hl v l]
    rcases linkReverse_cases x id layer m w with h | ⟨-, h⟩
    · rw [h]
    · rw [h, neighbors_rewire_upper hl]

/-- Linking back in the lowest layer: each of the nodes that has room gets the id. -/
theorem neighbors_linkReverses (v : UInt64) : ∀ (l : List UInt64) (x : HNSWIndex F), x.Plain → l.Nodup →
    (∀ w ∈ l, x.contains w = true) → (l.foldl (linkReverse id 0 m) x).neighbors v 0 =
      if v ∈ l ∧ (x.neighbors v 0).length < m then x.neighbors v 0 ++ [id] else x.neighbors v 0
  | [], _, _, _, _ => by simp
  | w :: l, x, hx, hnodup, hin => by
    obtain ⟨hw, hnodup⟩ := List.nodup_cons.mp hnodup
    obtain ⟨n, hn, -⟩ := Option.map_eq_some_iff.mp (contains_iff.mp (hin w List.mem_cons_self))
    have hr : Rewired x (linkReverse id 0 m x w) := rewired_linkReverses [w] x
    have hin' : ∀ u ∈ l, (linkReverse id 0 m x w).contains u = true := by
      intro u hu
      rw [contains_iff, hr.mark, ← contains_iff]
      exact hin u (List.mem_cons_of_mem _ hu)
    -- what the first of them becomes
    have hstep : (linkReverse id 0 m x w).neighbors v 0 =
        if v = w ∧ (x.neighbors v 0).length < m then x.neighbors v 0 ++ [id] else x.neighbors v 0 := by
      rcases linkReverse_cases x id 0 m w with h | ⟨hroom, h⟩
      · by_cases hvw : v = w
        · subst hvw
          have hfull : ¬ (x.neighbors v 0).length < m := by
            intro hroom
            have hlen := (hx v n hn).2.2
            have hset : linkReverse id 0 m x v = rewire v 0 (x.neighbors v 0 ++ [id]) x := by
              rw [neighbors_of_getNode hn] at hroom ⊢
              unfold linkReverse rewire modifyNode
              rw [hn]
              dsimp only
              rw [if_pos ⟨by omega, hroom⟩]
            have hneighbors := neighbors_rewire hx hn (x.neighbors v 0 ++ [id]) v
            rw [← hset, h, if_pos rfl] at hneighbors
            have := congrArg List.length hneighbors
            rw [List.length_append, List.length_singleton] at this
            omega
          rw [h, if_neg fun hc => hfull hc.2]
        · rw [h, if_neg fun hc => hvw hc.1]
      · rw [h, neighbors_rewire hx hn]
        by_cases hvw : v = w
        · rw [if_pos hvw, hvw, if_pos ⟨rfl, hroom⟩]
        · rw [if_neg hvw, if_neg fun hc => hvw hc.1]
    rw [List.foldl_cons, neighbors_linkReverses v l _ (hx.rewired hr) hnodup hin', hstep]
    by_cases hvw : v = w
    · subst hvw
      simp [hw]
    · simp [hvw]

section Relink

variable [Floats F]

/-- The nodes a node is linked to in the lowest layer. -/
def selectedFor (x : HNSWIndex F) (vector : List F) : List UInt64 :=
  x.selectNeighbors (x.searchLayer vector (fun _ => true) x.config.efConstruction [x.entryPointId] 0)
    x.config.maxConnectionsLayer0

theorem relinkLayer_zero (vector : List F) : relinkLayer id vector x 0 =
    (x.selectedFor vector).foldl
      (linkReverse id 0 (rewire id 0 (x.selectedFor vector) x).config.maxConnectionsLayer0)
      (rewire id 0 (x.selectedFor vector) x) := rfl

theorem relinkLayer_eq (x : HNSWIndex F) (id : UInt64) (layer : ℕ) (vector : List F) : ∃ sel : List UInt64,
    relinkLayer id vector x layer =
      sel.foldl (linkReverse id layer ((rewire id layer sel x).maxConnectionsForLayer layer)) (rewire id layer sel x) :=
  ⟨_, rfl⟩

theorem rewired_relinkLayer (vector : List F) : Rewired x (relinkLayer id vector x layer) := by
  obtain ⟨sel, h⟩ := relinkLayer_eq x id layer vector
  rw [h]
  exact rewired_rewire.trans (rewired_linkReverses _ _)

theorem neighbors_relinkLayer_upper (hl : layer ≠ 0) (vector : List F) (v : UInt64) :
    (relinkLayer id vector x layer).neighbors v 0 = x.neighbors v 0 := by
  obtain ⟨sel, h⟩ := relinkLayer_eq x id layer vector
  rw [h, neighbors_linkReverses_upper hl, neighbors_rewire_upper hl]

theorem relinkLayers_upper (vector : List F) (v : UInt64) : ∀ (layers : List ℕ) (x : HNSWIndex F),
    (∀ l ∈ layers, l ≠ 0) → Rewired x (layers.foldl (relinkLayer id vector) x) ∧
      (layers.foldl (relinkLayer id vector) x).neighbors v 0 = x.neighbors v 0
  | [], x, _ => ⟨.refl x, rfl⟩
  | l :: layers, x, h => by
    obtain ⟨hr, hn⟩ := relinkLayers_upper vector v layers (relinkLayer id vector x l) fun l' hl' =>
      h l' (List.mem_cons_of_mem _ hl')
    exact ⟨(rewired_relinkLayer vector).trans hr,
      hn.trans (neighbors_relinkLayer_upper (h l List.mem_cons_self) vector v)⟩

/-- Linking a node: the lists of the lowest layer change in its first step. -/
theorem relink_spec (h : x.Plain) {n : Node F} (hn : x.getNode id = some n) :
    Rewired x (relink x id) ∧ ∀ v, (relink x id).neighbors v 0 = (relinkLayer id n.vector x 0).neighbors v 0 := by
  have hlevel := (h id n hn).2.1
  have hrange : List.range (n.level + 1).toNat = 0 :: (List.range n.level.toNat).map Nat.succ := by
    have hsucc : (n.level + 1).toNat = n.level.toNat + 1 := by omega
    rw [hsucc, List.range_succ_eq_map]
  have hupper : ∀ l ∈ (List.range n.level.toNat).map Nat.succ, l ≠ 0 := by
    intro l hl
    obtain ⟨k, -, rfl⟩ := List.mem_map.mp hl
    exact Nat.succ_ne_zero k
  have heq : relink x id = ((List.range n.level.toNat).map Nat.succ).foldl (relinkLayer id n.vector)
      (relinkLayer id n.vector x 0) := by
    unfold relink
    rw [hn]
    dsimp only
    rw [hrange, List.foldl_cons]
  rw [heq]
  exact ⟨(rewired_relinkLayer n.vector).trans (relinkLayers_upper n.vector id _ _ hupper).1,
    fun v => (relinkLayers_upper n.vector v _ _ hupper).2⟩

/-- With room in the search for all that is found, linking a node is a step of the mesh. -/
theorem relinked (h : x.Plain) (hef : x.Within x.entryPointId x.config.efConstruction)
    (hlinks : ∀ v, ∀ w ∈ x.neighbors v 0, x.contains w = true) (hentry : x.contains x.entryPointId = true) (id : UInt64)
    {n : Node F} (hn : x.getNode id = some n) : ∃ found sel, Mesh.Relinked x.config.maxConnectionsLayer0 x.entryPointId
      (x.neighbors · 0) ((relink x id).neighbors · 0) id found sel := by
  obtain ⟨e, he, -⟩ := Option.map_eq_some_iff.mp (contains_iff.mp hentry)
  obtain ⟨hnodup, hmem⟩ := searchLayer_wide n.vector hef he
  have hact : ∀ v, x.Leads x.entryPointId v → x.contains v = true := by
    intro v hv
    rcases Relation.ReflTransGen.cases_tail hv with rfl | ⟨u, -, hstep⟩
    · exact hentry
    · exact hlinks u v hstep
  have hspec := selectNeighbors_wide hnodup (fun v hv => ((hmem v).mp hv).2) x.config.maxConnectionsLayer0
  obtain ⟨hsel, hlen, hsub, hall⟩ := hspec
  have hnodup' : (x.selectedFor n.vector).Nodup := hsel
  have hwired : Rewired x (rewire id 0 (x.selectedFor n.vector) x) := rewired_rewire
  refine ⟨_, x.selectedFor n.vector, hnodup, fun v => (hmem v).trans (and_iff_left_of_imp (hact v)), hnodup', ?_, hsub,
    ?_, fun v => ?_⟩
  · rw [List.length_map]
    exact hlen
  · rw [List.length_map]
    exact hall
  · have hin : ∀ w ∈ x.selectedFor n.vector, (rewire id 0 (x.selectedFor n.vector) x).contains w = true := by
      intro w hw
      rw [contains_iff, hwired.mark, ← contains_iff]
      exact ((hmem w).mp (hsub w hw)).2
    show (relink x id).neighbors v 0 = _
    rw [(relink_spec h hn).2, relinkLayer_zero, hwired.config,
      neighbors_linkReverses v _ _ (h.rewired hwired) hnodup' hin, neighbors_rewire h hn]
    rfl

/-- What each step of the mesh keeps holds after linking one node after the other. -/
theorem relinks_run {k : ℕ} {P : HNSWIndex F} {I : List UInt64 → (UInt64 → List UInt64) → Prop}
    (hlinks : ∀ {done nb}, I done nb → ∀ v, ∀ w ∈ nb v, w = P.entryPointId ∨ w ∈ done)
    (hstep : ∀ {done nb nb' id found sel}, I done nb → id ∉ done → done.length < k →
      Mesh.Relinked P.config.maxConnectionsLayer0 P.entryPointId nb nb' id found sel → I (id :: done) nb')
    (hwide : ∀ {done nb}, I done nb → done.length < k → ∀ l : List UInt64, l.Nodup →
      (∀ v ∈ l, Mesh.Leads nb P.entryPointId v) → l.length ≤ P.config.efConstruction)
    (hP : P.Plain) (hrooted : ∀ v, P.contains v = true → P.contains P.entryPointId = true) :
    ∀ (ids done : List UInt64) (x : HNSWIndex F), Rewired P x → (ids ++ done).Nodup → (ids ++ done).length ≤ k →
      (∀ id ∈ ids ++ done, P.contains id = true) → I done (x.neighbors · 0) →
      Rewired P (ids.foldl relink x) ∧ ∃ done', done'.Perm (ids ++ done) ∧ I done' ((ids.foldl relink x).neighbors · 0)
  | [], done, x, hr, _, _, _, hI => ⟨hr, done, .refl _, hI⟩
  | id :: ids, done, x, hr, hnodup, hlen, hin, hI => by
    have hx := hP.rewired hr
    have hmark : ∀ v, x.contains v = true ↔ P.contains v = true := fun v => by
      rw [contains_iff, contains_iff, hr.mark]
    have hperm : (ids ++ id :: done).Perm (id :: ids ++ done) := List.perm_middle
    obtain ⟨n, hn, -⟩ := Option.map_eq_some_iff.mp
      (contains_iff.mp ((hmark id).mpr (hin id List.mem_cons_self)))
    have hnew : id ∉ done := fun hmem =>
      (List.nodup_cons.mp hnodup).1 (List.mem_append_right ids hmem)
    have hless : done.length < k := by
      simp only [List.cons_append, List.length_cons, List.length_append] at hlen
      omega
    have hentry := hrooted id (hin id List.mem_cons_self)
    have hwithin : x.Within x.entryPointId x.config.efConstruction := by
      intro l hl hin
      rw [hr.config]
      refine hwide hI hless l hl fun v hv => ?_
      have hled := (hin v hv).2
      rwa [hr.entryPointId] at hled
    obtain ⟨found, sel, hrel⟩ := relinked hx hwithin
      (fun v w hw => (hmark w).mpr <| by
        rcases hlinks hI v w hw with rfl | hw
        · exact hentry
        · exact hin w (List.mem_append_right _ hw))
      ((hmark _).mpr (hr.entryPointId ▸ hentry)) id hn
    rw [hr.config, hr.entryPointId] at hrel
    obtain ⟨hr', done', hperm', hI'⟩ := relinks_run hlinks hstep hwide hP hrooted ids (id :: done) (relink x id)
      (hr.trans (relink_spec hx hn).1) (hperm.nodup_iff.mpr hnodup) (hperm.length_eq.trans_le hlen)
      (fun v hv => hin v (hperm.mem_iff.mp hv)) (hstep hI hnew hless hrel)
    exact ⟨hr', done', hperm'.trans hperm, hI'⟩

end Relink

/-! ### The survivors, not linked yet -/

section Placed

variable {levels : UInt64 → ℕ} {s : UInt64 × List F}

theorem getNode_place (levels : UInt64 → ℕ) (s : UInt64 × List F) (y : HNSWIndex F) (v : UInt64) :
    (place levels y s).getNode v =
      if v = s.1 then
        some { vector := s.2, level := levels s.1, connections := List.replicate (levels s.1 + 1) [] }
      else y.getNode v := by
  unfold place getNode
  dsimp only
  split
  · rename_i h
    rw [h]
    exact AList.lookup_insert _
  · rename_i h
    exact AList.lookup_insert_ne h

/-- What holds when some are put. -/
structure Placed (config : HNSWConfig F) (ids : List UInt64) (y : HNSWIndex F) : Prop where
  config : y.config = config
  active : y.activeCount = ids.length
  plain : y.Plain
  blank : ∀ v, y.neighbors v 0 = []
  contains : ∀ v, y.contains v = true ↔ v ∈ ids
  entry : y.maxLevel ≠ -1 → y.entryPointId ∈ ids
  rooted : ids ≠ [] → y.maxLevel ≠ -1

theorem Placed.place {config : HNSWConfig F} {ids : List UInt64} {y : HNSWIndex F} (h : Placed config ids y) :
    Placed config (ids ++ [s.1]) (place levels y s) where
  config := h.config
  active := by
    rw [List.length_append, List.length_singleton, ← h.active]
    rfl
  plain := by
    intro id n hn
    rw [getNode_place] at hn
    split at hn
    · rw [← Option.some.inj hn]
      exact ⟨rfl, Int.natCast_nonneg _, by simp⟩
    · exact h.plain id n hn
  blank := by
    intro v
    by_cases hv : v = s.1
    · have hget := getNode_place levels s y v
      rw [if_pos hv] at hget
      rw [neighbors_of_getNode hget]
      rfl
    · have hget := getNode_place levels s y v
      rw [if_neg hv] at hget
      rw [neighbors_congr hget]
      exact h.blank v
  contains := by
    intro v
    have hget := getNode_place levels s y v
    rw [List.mem_append, List.mem_singleton, ← h.contains]
    unfold HNSWIndex.contains
    rw [hget]
    by_cases hv : v = s.1
    · simp [hv]
    · simp [hv]
  entry := by
    intro _
    unfold HNSWIndex.place
    dsimp only
    split
    · exact List.mem_append_right _ (List.mem_singleton_self _)
    · rename_i hlow
      exact List.mem_append_left _ (h.entry fun hm => hlow (.inl hm))
  rooted := by
    intro _
    unfold HNSWIndex.place
    dsimp only
    split
    · exact fun hneg => by omega
    · rename_i hlow
      exact fun hm => hlow (.inl hm)

theorem Placed.places {config : HNSWConfig F} : ∀ (l : List (UInt64 × List F)) (ids : List UInt64) {y : HNSWIndex F},
    Placed config ids y → Placed config (ids ++ l.map (·.1)) (l.foldl (HNSWIndex.place levels) y)
  | [], ids, _, h => by
    rw [List.map_nil, List.append_nil]
    exact h
  | s :: l, ids, _, h => by
    rw [List.foldl_cons, List.map_cons, List.append_cons]
    exact Placed.places l _ h.place

theorem placed_survivors [Floats F] (x : HNSWIndex F) (order : Shuffle) (levels : UInt64 → ℕ) :
    Placed x.config ((x.survivors order).map (·.1)) ((x.survivors order).foldl (HNSWIndex.place levels)
      { x with nodes := ∅, entryPointId := 0, maxLevel := -1, activeCount := 0 }) :=
  Placed.places _ []
    { config := rfl
      active := rfl
      plain := fun _ _ hn => nomatch hn
      blank := fun _ => rfl
      contains := fun _ => ⟨fun h => (Bool.false_ne_true h).elim, fun h => absurd h List.not_mem_nil⟩
      entry := fun h => absurd rfl h
      rooted := fun h => absurd rfl h }

end Placed

section Compact

variable [Floats F]

omit [Floats F] in
theorem mem_survivors (order : Shuffle) : id ∈ (x.survivors order).map (·.1) ↔ x.contains id = true := by
  have hone : ∀ {i : UInt64} {s : UInt64 × List F},
      (x.getNode i).bind (fun n => if n.deleted then none else some (i, n.vector)) = some s ↔
        ∃ n, x.getNode i = some n ∧ n.deleted = false ∧ (i, n.vector) = s := by
    intro i s
    rw [Option.bind_eq_some_iff]
    refine exists_congr fun n => and_congr_right fun _ => ?_
    cases n.deleted <;> simp
  rw [List.mem_map]
  constructor
  · rintro ⟨s, hs, rfl⟩
    obtain ⟨i, -, hi⟩ := List.mem_filterMap.mp hs
    obtain ⟨n, hn, hdel, rfl⟩ := hone.mp hi
    exact (contains_of_getNode hn).mpr hdel
  · intro hid
    obtain ⟨n, hn, -⟩ := Option.map_eq_some_iff.mp (contains_iff.mp hid)
    refine ⟨(id, n.vector), List.mem_filterMap.mpr ⟨id, (order.perm _).mem_iff.mpr (mem_keys_of_contains hid), ?_⟩, rfl⟩
    exact hone.mpr ⟨n, hn, (contains_of_getNode hn).mp hid, rfl⟩

omit [Floats F] in
theorem length_survivors (order : Shuffle) : ((x.survivors order).map (·.1)).length = x.activeIds.card := by
  have heq : ((x.survivors order).map (·.1)).toFinset = x.activeIds := by
    ext id
    rw [List.mem_toFinset, mem_survivors, mem_activeIds]
  rw [← heq, List.toFinset_card_of_nodup (survivors_spec order).1]

omit [Floats F] in
/-- Something is thrown away if a node is marked. -/
theorem survivors_length_lt (order : Shuffle) {n : Node F} (hn : x.getNode id = some n) (hdel : n.deleted = true) :
    (x.survivors order).length < x.nodes.keys.length := by
  have hid : id ∉ (x.survivors order).map (·.1) := by
    rw [mem_survivors, contains_of_getNode hn, hdel]
    exact fun h => Bool.false_ne_true h.symm
  have hkeys : id :: (x.survivors order).map (·.1) ⊆ x.nodes.keys := by
    intro v hv
    rcases List.mem_cons.mp hv with rfl | hv
    · exact AList.lookup_isSome.mp (Option.isSome_of_eq_some hn)
    · exact mem_keys_of_contains ((mem_survivors order).mp hv)
  have hlen := ((List.nodup_cons.mpr ⟨hid, (survivors_spec order).1⟩).subperm hkeys).length_le
  rwa [List.length_cons, List.length_map] at hlen

omit [Floats F] in
theorem Plain.mem_keys (h : x.Plain) : id ∈ x.nodes.keys ↔ x.contains id = true := by
  refine ⟨fun hid => ?_, mem_keys_of_contains⟩
  obtain ⟨n, hn⟩ := Option.isSome_iff_exists.mp (AList.lookup_isSome.mpr hid)
  exact h.contains hn

/-- What compaction leaves: the survivors, linked one after the other. -/
structure Compacted (x y : HNSWIndex F) (done : List UInt64) : Prop where
  config : y.config = x.config
  plain : y.Plain
  contains : ∀ v, y.contains v = true ↔ x.contains v = true
  active : y.activeCount = x.activeIds.card
  nodup : done.Nodup
  mem : ∀ v, v ∈ done ↔ x.contains v = true
  rooted : ∀ v, y.contains v = true → y.contains y.entryPointId = true

omit [Floats F] in
theorem Compacted.length {y : HNSWIndex F} (h : Compacted x y done) : done.length = x.activeIds.card := by
  have heq : done.toFinset = x.activeIds := by
    ext id
    rw [List.mem_toFinset, h.mem, mem_activeIds]
  rw [← heq, List.toFinset_card_of_nodup h.nodup]

/-- What each step of the mesh keeps holds after compaction. -/
theorem compacted (order order' : Shuffle) (levels : UInt64 → ℕ) {n : Node F} (hn : x.getNode id = some n)
    (hdel : n.deleted = true) {I : UInt64 → List UInt64 → (UInt64 → List UInt64) → Prop}
    (hnil : ∀ entry, I entry [] fun _ => [])
    (hlinks : ∀ {entry done nb}, I entry done nb → ∀ v, ∀ w ∈ nb v, w = entry ∨ w ∈ done)
    (hstep : ∀ {entry done nb nb' id found sel}, I entry done nb → id ∉ done → done.length < x.activeIds.card →
      Mesh.Relinked x.config.maxConnectionsLayer0 entry nb nb' id found sel → I entry (id :: done) nb')
    (hwide : ∀ {entry done nb}, I entry done nb → done.length < x.activeIds.card → ∀ l : List UInt64, l.Nodup →
      (∀ v ∈ l, Mesh.Leads nb entry v) → l.length ≤ x.config.efConstruction) :
    ∃ done, Compacted x (x.compact order order' levels) done ∧
      I (x.compact order order' levels).entryPointId done ((x.compact order order' levels).neighbors · 0) := by
  have hlost := survivors_length_lt order hn hdel
  have hplaced := placed_survivors x order levels
  have hlength := length_survivors (x := x) order
  unfold compact
  rw [if_neg (by omega)]
  dsimp only
  generalize (x.survivors order).foldl (HNSWIndex.place levels)
    { x with nodes := ∅, entryPointId := 0, maxLevel := -1, activeCount := 0 } = P at hplaced ⊢
  have hmem : ∀ v, v ∈ order'.toFun P.nodes.keys ↔ P.contains v = true := fun v =>
    (order'.perm _).mem_iff.trans hplaced.plain.mem_keys
  have hnodup : (order'.toFun P.nodes.keys).Nodup := (order'.perm _).nodup_iff.mpr P.nodes.nodupKeys
  have hlen : (order'.toFun P.nodes.keys).length ≤ x.activeIds.card :=
    hlength ▸ (hnodup.subperm fun v hv => (hplaced.contains v).mp ((hmem v).mp hv)).length_le
  have hrooted : ∀ v, P.contains v = true → P.contains P.entryPointId = true := fun v hv =>
    (hplaced.contains _).mpr (hplaced.entry (hplaced.rooted (List.ne_nil_of_mem ((hplaced.contains v).mp hv))))
  have hblank : (P.neighbors · 0) = fun _ => [] := funext hplaced.blank
  obtain ⟨hr, done, hperm, hI⟩ := relinks_run (k := x.activeIds.card) (P := P) (I := I P.entryPointId) hlinks
    (by rw [hplaced.config]; exact hstep) (by rw [hplaced.config]; exact hwide) hplaced.plain hrooted
    (order'.toFun P.nodes.keys) [] P (.refl P) (by rwa [List.append_nil]) (by rwa [List.append_nil])
    (fun v hv => (hmem v).mp (by rwa [List.append_nil] at hv)) (hblank ▸ hnil _)
  rw [List.append_nil] at hperm
  have hmark : ∀ v, ((order'.toFun P.nodes.keys).foldl relink P).contains v = true ↔ P.contains v = true := fun v => by
    rw [contains_iff, contains_iff, hr.mark]
  have hsame : ∀ v, P.contains v = true ↔ x.contains v = true := fun v =>
    (hplaced.contains v).trans (mem_survivors order)
  refine ⟨done, ⟨hr.config.trans hplaced.config, hplaced.plain.rewired hr, fun v => (hmark v).trans (hsame v),
    (hr.activeCount.trans hplaced.active).trans hlength, hperm.nodup_iff.mpr hnodup,
    fun v => (hperm.mem_iff.trans (hmem v)).trans (hsame v), fun v hv => ?_⟩, hr.entryPointId ▸ hI⟩
  rw [hmark, hr.entryPointId]
  exact hrooted v ((hmark v).mp hv)

/-- With room for all survivors, all are found from the entry point. -/
theorem compact_woven (order order' : Shuffle) (levels : UInt64 → ℕ) {n : Node F} (hn : x.getNode id = some n)
    (hdel : n.deleted = true) (hm : x.activeIds.card ≤ x.config.maxConnectionsLayer0)
    (hef : x.activeIds.card ≤ x.config.efConstruction)
    (htwo : x.activeIds.card = 2 → 3 ≤ x.config.maxConnectionsLayer0) :
    ∃ done, Compacted x (x.compact order order' levels) done ∧
      Mesh.Woven (x.compact order order' levels).entryPointId done ((x.compact order order' levels).neighbors · 0) := by
  refine compacted order order' levels hn hdel (fun entry => Mesh.woven_nil fun _ => rfl) Mesh.Woven.links
    (fun h hid hlt hr => h.step hr hid (Nat.lt_of_lt_of_le hlt hm) fun hone => ?_) fun h hlt l hl hled => ?_
  · rw [hone, List.length_singleton] at hlt
    omega
  · have hsub := (hl.subperm fun v hv => List.mem_cons.mpr (Mesh.mem_of_leads h.links (hled v hv))).length_le
    rw [List.length_cons] at hsub
    omega

/-- The nodes found from the entry point are packed. -/
theorem compact_packed (order order' : Shuffle) (levels : UInt64 → ℕ) {n : Node F} (hn : x.getNode id = some n)
    (hdel : n.deleted = true) (hef : x.config.maxConnectionsLayer0 < x.config.efConstruction) :
    ∃ done, Compacted x (x.compact order order' levels) done ∧
      Mesh.Packed x.config.maxConnectionsLayer0 (x.compact order order' levels).entryPointId done
        ((x.compact order order' levels).neighbors · 0) :=
  compacted order order' levels hn hdel (fun _ => Mesh.packed_nil fun _ => rfl) Mesh.Packed.links
    (fun h _ _ hr => h.step hr) fun h _ _ hl hled => (h.length_le hl hled).trans hef

/-- A search with room for all answers all, when links lead from everywhere to everything. -/
theorem search_wide {y : HNSWIndex F} (hentry : y.contains y.entryPointId = true)
    (hactive : y.activeCount ≠ 0) (hleads : ∀ u v, y.contains u = true → y.contains v = true → y.Leads u v)
    {query : List F} (hquery : query.length = y.config.dimension) (topK : ℕ) (htop : y.nodes.keys.length ≤ topK) :
    ((y.search query topK).map (·.id)).Nodup ∧ ∀ v, v ∈ (y.search query topK).map (·.id) ↔ y.contains v = true := by
  have hkeys : y.nodes.keys ≠ [] := List.ne_nil_of_mem (mem_keys_of_contains hentry)
  unfold search
  rw [if_neg (not_not.mpr hquery), if_neg (not_or.mpr ⟨hkeys, hactive⟩)]
  dsimp only
  -- the search of the lowest layer starts from an active node
  have hstart : y.contains ((layersDown y.maxLevel 0).foldl (y.greedyClosest query) y.entryPointId) = true := by
    rcases descend_eq_or_contains (x := y) (layersDown y.maxLevel 0) y.entryPointId with h | h
    · rw [h]
      exact hentry
    · exact h
  generalize (layersDown y.maxLevel 0).foldl (y.greedyClosest query) y.entryPointId = e at hstart ⊢
  obtain ⟨n, hn, -⟩ := Option.map_eq_some_iff.mp (contains_iff.mp hstart)
  obtain ⟨hnodup, hmem⟩ := searchLayer_wide query
    (within_keys (e := e) (htop.trans (le_max_left topK y.config.efSearch))) hn
  have hlen : (y.searchLayer query (fun _ => true) (max topK y.config.efSearch) [e] 0).length ≤ topK := by
    have hkeys := fun v hv => mem_keys_of_contains ((hmem v).mp hv).2
    have hsub := (hnodup.subperm hkeys).length_le
    rw [List.length_map] at hsub
    exact hsub.trans htop
  rw [List.take_of_length_le hlen]
  exact ⟨hnodup, fun v => (hmem v).trans (and_iff_right_of_imp (hleads e v hstart))⟩

end Compact

end HNSWIndex

/-! ### What is findable -/

namespace TieredIndex

open HNSWIndex

variable {F : Type} [Floats F]

/-- Of an index `x` that has become `y`: links lead to all survivors, and with room
for them in all lists and searches a search answers them all. -/
structure Findable (x y : TieredIndex F) : Prop where
  reachable : ∀ id, x.hot.contains id = true → y.hot.Leads y.hot.entryPointId id
  found : x.hot.activeIds.card ≤ x.hot.config.efConstruction → x.hot.activeIds.card ≤ x.hot.config.efSearch →
    x.hot.activeIds.card ≤ x.hot.config.maxConnectionsLayer0 → ∀ (query : List F) (topK : ℕ),
    query.length = x.hot.config.dimension → x.hot.activeIds.card ≤ topK →
    ((y.search query topK).map (·.id)).Nodup ∧ ∀ id, id ∈ (y.search query topK).map (·.id) ↔ x.hot.contains id = true

theorem search_hot {x : TieredIndex F} (hcold : ∀ t, x.cold = some t → t.size = 0) {query : List F} {topK : ℕ}
    (hquery : query.length = x.hot.config.dimension) : x.search query topK = x.hot.search query topK := by
  unfold TieredIndex.search
  dsimp only
  rw [if_neg (not_not.mpr hquery)]
  split
  · rename_i hnone
    unfold HNSWIndex.search
    rw [if_neg (not_not.mpr hquery), if_pos hnone]
  · cases hc : x.cold with
    | none => rfl
    | some t =>
      dsimp only
      rw [if_pos (hcold t hc)]

/-- With more than one survivor too many for the lists links never lead to all. -/
theorem not_findable_compact {x : TieredIndex F} (order order' : Shuffle) (levels : UInt64 → ℕ)
    (hmarked : ∃ id n, x.hot.getNode id = some n ∧ n.deleted = true)
    (hef : x.hot.config.maxConnectionsLayer0 < x.hot.config.efConstruction)
    (hmany : x.hot.config.maxConnectionsLayer0 + 1 < x.hot.activeIds.card) :
    ¬ Findable x (x.change (.compact order order' levels)) := by
  intro hfind
  obtain ⟨id, n, hn, hdel⟩ := hmarked
  obtain ⟨done, hy, hpacked⟩ := compact_packed order order' levels hn hdel hef
  have hlen := hpacked.length_le hy.nodup fun v hv => hfind.reachable v ((hy.mem v).mp hv)
  rw [hy.length] at hlen
  omega

/-- **Compaction leaves all survivors findable if searches and lists have room for
them**, and not if there are more than one too many for the lists. -/
theorem compact_findable (x : TieredIndex F) (order order' : Shuffle) (levels : UInt64 → ℕ)
    (hmarked : ∃ id n, x.hot.getNode id = some n ∧ n.deleted = true) :
    (x.hot.activeIds.card ≤ x.hot.config.maxConnectionsLayer0 → x.hot.activeIds.card ≤ x.hot.config.efConstruction →
      (x.hot.activeIds.card = 2 → 3 ≤ x.hot.config.maxConnectionsLayer0) → (∀ t, x.cold = some t → t.size = 0) →
      Findable x (x.change (.compact order order' levels))) ∧
    (x.hot.config.maxConnectionsLayer0 < x.hot.config.efConstruction →
      x.hot.config.maxConnectionsLayer0 + 1 < x.hot.activeIds.card →
      ¬ Findable x (x.change (.compact order order' levels))) := by
  refine ⟨?_, not_findable_compact order order' levels hmarked⟩
  obtain ⟨id, n, hn, hdel⟩ := hmarked
  intro hm hef htwo hcold
  obtain ⟨done, hy, hwoven⟩ := compact_woven order order' levels hn hdel hm hef htwo
  have hmem : ∀ v, v ∈ done ↔ (x.hot.compact order order' levels).contains v = true := fun v =>
    (hy.mem v).trans (hy.contains v).symm
  refine ⟨fun v hv => hwoven.led v ((hy.mem v).mpr hv), fun _ _ _ query topK hquery htop => ?_⟩
  have hdim : query.length = (x.hot.compact order order' levels).config.dimension := by
    rw [hy.config]
    exact hquery
  have hsearch : (x.change (.compact order order' levels)).search query topK =
      (x.hot.compact order order' levels).search query topK :=
    search_hot (x := x.change (.compact order order' levels)) hcold hdim
  rw [hsearch]
  by_cases hnone : x.hot.activeIds.card = 0
  · -- nothing survives
    have hdone : done = [] := List.eq_nil_of_length_eq_zero (hy.length.trans hnone)
    have hnil : (x.hot.compact order order' levels).search query topK = [] := by
      unfold HNSWIndex.search
      rw [if_neg (not_not.mpr hdim), if_pos (.inr (hy.active.trans hnone))]
    rw [hnil]
    refine ⟨List.nodup_nil, fun v => ?_⟩
    rw [← hy.mem, hdone, List.map_nil]
  · have hsub : (x.hot.compact order order' levels).nodes.keys ⊆ done := fun v hv =>
      (hmem v).mpr (hy.plain.mem_keys.mp hv)
    have hkeys := ((AList.nodupKeys _).subperm hsub).length_le.trans (hy.length.trans_le htop)
    obtain ⟨v, hv⟩ := Finset.card_ne_zero.mp hnone
    have hentry := hy.rooted v ((hy.contains v).mpr (mem_activeIds.mp hv))
    obtain ⟨hnodup, hall⟩ := search_wide hentry (hy.active.trans_ne hnone)
      (fun u v hu hv => Relation.ReflTransGen.head (hwoven.home u ((hmem u).mpr hu)) (hwoven.led v ((hmem v).mpr hv)))
      hdim topK hkeys
    exact ⟨hnodup, fun v => (hall v).trans (hy.contains v)⟩

/-- Points of a line, with lists of at most `m` links in the lowest layer: ids 1 to 5
are inserted and id 5 is removed. -/
def fivePoints (m : ℕ) : TieredIndex ℤ :=
  Run.run change { hot := { config := { line.hot.config with maxConnectionsLayer0 := m } }, evictCount := id }
    [.op (.insert 1 [5] 0), .op (.insert 2 [6] 0), .op (.insert 3 [7] 0), .op (.insert 4 [8] 0), .op (.insert 5 [9] 0),
      .op (.remove 5)]

theorem compact_findable_points :
    (let x := fivePoints 32
     Findable x (x.change (.compact ⟨id, fun _ => .refl _⟩ ⟨id, fun _ => .refl _⟩ fun _ => 0))) ∧
    (let x := fivePoints 2
     ¬ Findable x (x.change (.compact ⟨id, fun _ => .refl _⟩ ⟨id, fun _ => .refl _⟩ fun _ => 0))) :=
  ⟨(compact_findable (fivePoints 32) _ _ _ ⟨5, (Option.any_eq_true _ _).mp (by decide)⟩).1 (by decide) (by decide)
      (by decide) (fun _ h => by cases h),
    (compact_findable (fivePoints 2) _ _ _ ⟨5, (Option.any_eq_true _ _).mp (by decide)⟩).2 (by decide) (by decide)⟩

/-- With four survivors and lists of two, whatever the order of the tables and the
levels that are drawn, one is lost. -/
theorem compact_lost :
    let x := fivePoints 2
    ((∃ n, x.hot.getNode 5 = some n ∧ n.deleted = true) ∧ x.hot.activeIds.card = 4) ∧
    ∀ (order order' : Shuffle) (levels : UInt64 → ℕ), ¬ Findable x (x.change (.compact order order' levels)) := by
  have hmarked : ∃ n, (fivePoints 2).hot.getNode 5 = some n ∧ n.deleted = true :=
    (Option.any_eq_true _ _).mp (by decide)
  refine ⟨⟨hmarked, by decide⟩, fun order order' levels => ?_⟩
  exact not_findable_compact order order' levels ⟨5, hmarked⟩ (by decide) (by decide)

end TieredIndex
end Vector
end Amind
