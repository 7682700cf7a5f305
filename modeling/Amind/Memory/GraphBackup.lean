/-
# Exporting a graph and importing it

Each edge is a line with its ends, the name of its type, its weight and its time. The
importer adds the edges one by one: an edge gets the time of the import, a type that has no
name is read as a plain relation, and a line whose weight is no number is passed over.

What is imported is written over the graph that is there. All edges of the backup have then
the weights they had, in every graph and in every order in which they were written, exactly
if each edge has a type with a name and a finite weight (`restored_iff`).
-/
import Amind.Graph.Histories
import Amind.Memory.Backup

namespace Amind
namespace Memory
namespace GraphBackup

open Amind.Core Amind.Graph Json
open Run (run Along)
open Amind.Vector (FloatBits)

def edgeTypeToString : EdgeType → Utf8Text
  | .related => Utf8.lit "Related"
  | .caused => Utf8.lit "Caused"
  | .contradicts => Utf8.lit "Contradicts"
  | .supersedes => Utf8.lit "Supersedes"
  | .derivedFrom => Utf8.lit "DerivedFrom"
  | .sameSession => Utf8.lit "SameSession"
  | .corrects => Utf8.lit "Corrects"
  | .prerequisite => Utf8.lit "Prerequisite"
  | .temporal => Utf8.lit "Temporal"
  | .entity => Utf8.lit "Entity"
  | .conflictsWith => Utf8.lit "ConflictsWith"
  | .unnamed _ => Utf8.lit "Unknown"

def edgeTypeFromString (s : Text) : EdgeType :=
  if s = Utf8.bytes "Caused" then .caused
  else if s = Utf8.bytes "Contradicts" then .contradicts
  else if s = Utf8.bytes "Supersedes" then .supersedes
  else if s = Utf8.bytes "DerivedFrom" then .derivedFrom
  else if s = Utf8.bytes "SameSession" then .sameSession
  else if s = Utf8.bytes "Corrects" then .corrects
  else if s = Utf8.bytes "Prerequisite" then .prerequisite
  else if s = Utf8.bytes "Temporal" then .temporal
  else if s = Utf8.bytes "Entity" then .entity
  else if s = Utf8.bytes "ConflictsWith" then .conflictsWith
  else .related

/-- An edge as it is read: ends, type and weight. -/
structure ReadEdge (F : Type) where
  fromId : UInt64
  toId : UInt64
  type : EdgeType
  weight : F

section Graphs

variable {F D : Type} [Floats F] (nf : Numbers F D)

/-- The members of an edge that is exported. -/
def edgeMembers (e : GraphEdge F) : List (Utf8Text × Json D) :=
  [(Utf8.lit "from_id", .int e.fromId.toNat), (Utf8.lit "to_id", .int e.toId.toNat),
    (Utf8.lit "type", .str (edgeTypeToString e.type)), (Utf8.lit "weight", ofFloat nf e.weight),
    (Utf8.lit "created_at", .int e.createdAt.toNat)]

def exportEdge (e : GraphEdge F) : Json D := .obj (Keyed.ofPairs (edgeMembers nf e))

/-- All edges, in the order in which the table is walked through. -/
def getAllEdges (u : Unspecified) (g : GraphStore F) : List (GraphEdge F) :=
  (u.order g.adjacency.keys).flatMap g.getEdges

def exportGraph (u : Unspecified) (g : GraphStore F) : Text :=
  (getAllEdges u g).flatMap fun e => nf.text.dump (exportEdge nf e) ++ [0x0A]

/-- The edge of a line. -/
def importEdge (j : Json D) : Option (ReadEdge F) := do
  let fromId ← member j "from_id" (fun v => (toInt nf v).map UInt64.ofInt) 0
  let toId ← member j "to_id" (fun v => (toInt nf v).map UInt64.ofInt) 0
  let weight ← member j "weight" (toFloat nf) 1
  let type ← member j "type" getText (Utf8.bytes "Related")
  pure ⟨fromId, toId, edgeTypeFromString type, weight⟩

/-- The edges of the lines that can be read. -/
def readEdges (jsonl : Text) : List (ReadEdge F) :=
  (importLines jsonl).filterMap fun line => (nf.text.parse line).bind (importEdge nf)

/-- The edge is added, at a time of the clock. -/
def ReadEdge.change (now : UInt32) (e : ReadEdge F) : Change F := .addEdge e.fromId e.toId e.type e.weight now

/-- The graph with the edges of the text added, each logged and then in memory, and how many
there were. -/
def importGraph (bits : FloatBits F) (g : OpenGraph F) (jsonl : Text) (now : ℕ → UInt32) : OpenGraph F × ℕ :=
  let edges := readEdges nf jsonl
  (run (OpenGraph.step bits) g (edges.mapIdx fun k e => .change (e.change (now k))), edges.length)

/-! ### One line -/

/-- The edge as it is read again. -/
def reread (e : GraphEdge F) : ReadEdge F :=
  ⟨e.fromId, e.toId, edgeTypeFromString (edgeTypeToString e.type).val, e.weight⟩

/-- A type that has a name is read as it was written. -/
theorem edgeTypeFromString_toString {t : EdgeType} :
    edgeTypeFromString (edgeTypeToString t).val = if t ∈ EdgeType.named then t else .related := by
  cases t with
  | unnamed i =>
    have hno : EdgeType.unnamed i ∉ EdgeType.named := by simp [EdgeType.named]
    rw [if_neg hno]
    rfl
  | _ => decide

omit [Floats F] in
theorem nodup_edgeMembers (e : GraphEdge F) : ((edgeMembers nf e).map Prod.fst).Nodup := by
  show ([Utf8.lit "from_id", Utf8.lit "to_id", Utf8.lit "type", Utf8.lit "weight", Utf8.lit "created_at"] :
    List Utf8Text).Nodup
  decide

/-- An edge is read again, if its weight is finite. -/
theorem importEdge_export (hnf : nf.Lawful) (e : GraphEdge F) :
    importEdge nf (exportEdge nf e) = if (nf.widen e.weight).isSome then some (reread e) else none := by
  have hmember : ∀ {α : Type} (i : ℕ) {key : String} {v : Json D} (get : Json D → Option α) (otherwise : α),
      (edgeMembers nf e)[i]? = some (Utf8.lit key, v) → member (exportEdge nf e) key get otherwise = get v :=
    fun i key v get otherwise hi => member_ofPairs (nodup_edgeMembers nf e) (List.mem_of_getElem? hi) get otherwise
  unfold importEdge
  rw [hmember 0 _ _ rfl, hmember 1 _ _ rfl, hmember 3 _ _ rfl, hmember 2 _ _ rfl, toFloat_ofFloat hnf]
  by_cases hw : (nf.widen e.weight).isSome = true
  · rw [if_pos hw, if_pos hw]
    simp [getText, toInt, ofInt_toNat64, reread]
  · rw [if_neg hw, if_neg hw]
    rfl

omit [Floats F] in
theorem wellFormed_exportEdge (e : GraphEdge F) : Json.WellFormed (exportEdge nf e) := by
  refine wellFormed_ofPairs fun m hm => ?_
  simp only [edgeMembers, List.mem_cons, List.not_mem_nil, or_false] at hm
  rcases hm with rfl | rfl | rfl | rfl | rfl
  · exact wellFormed_nat e.fromId.toNat_lt
  · exact wellFormed_nat e.toId.toNat_lt
  · exact .str _
  · exact wellFormed_ofFloat _
  · exact wellFormed_nat (e.createdAt.toNat_lt.trans (by decide))

/-- **The lines of a graph** are read as its edges, those that are finite. -/
theorem readEdges_lines (hnf : nf.Lawful) : ∀ es : List (GraphEdge F),
    readEdges nf (es.flatMap fun e => nf.text.dump (exportEdge nf e) ++ [0x0A]) =
      (es.filter fun e => (nf.widen e.weight).isSome).map reread
  | [] => rfl
  | e :: es => by
    have ih := readEdges_lines hnf es
    have hne : nf.text.dump (exportEdge nf e) ≠ [] := List.ne_nil_of_length_pos (hnf.text.length_dump_pos _)
    have hline : 0x0A ∉ nf.text.dump (exportEdge nf e) :=
      fun hm => absurd (hnf.text.ge_of_mem_dump _ hm) (by decide)
    have hread : (nf.text.parse (nf.text.dump (exportEdge nf e))).bind (importEdge nf) =
        if (nf.widen e.weight).isSome then some (reread e) else none := by
      rw [hnf.text.parse_dump (wellFormed_exportEdge nf e), Option.bind_some, importEdge_export nf hnf]
    unfold readEdges at ih ⊢
    rw [List.flatMap_cons, importLines_cons hne hline, List.filterMap_cons, hread, ih]
    by_cases hw : (nf.widen e.weight).isSome = true
    · rw [if_pos hw, List.filter_cons_of_pos (by simpa using hw)]
      rfl
    · rw [if_neg hw, List.filter_cons_of_neg (by simpa using hw)]

theorem readEdges_exportGraph (hnf : nf.Lawful) (u : Unspecified) (g : GraphStore F) :
    readEdges nf (exportGraph nf u g) = ((getAllEdges u g).filter fun e => (nf.widen e.weight).isSome).map reread :=
  readEdges_lines nf hnf _

/-! ### The graph after an import -/

/-- The weight of the edge with these ends and this type. -/
def weightOf (g : GraphStore F) (k : EdgeKey) : Option F := (g.view k).map Prod.fst

/-- The edge, added, is one of those ends and that type. -/
def ReadEdge.Writes (e : ReadEdge F) (k : EdgeKey) : Prop :=
  k = ⟨e.fromId, e.toId, e.type⟩ ∨ e.type.undirected = true ∧ k = ⟨e.toId, e.fromId, e.type⟩

/-- What adding the edges writes. -/
def addPatches (edges : List (ReadEdge F)) (now : ℕ → UInt32) : List (Patch EdgeKey (Option (F × UInt32))) :=
  edges.mapIdx fun k e => GraphStore.addPatch e.fromId e.toId e.type e.weight (now k)

section Imports

variable {bits : FloatBits F} {g : OpenGraph F} {edges : List (ReadEdge F)} {now : ℕ → UInt32} {k : EdgeKey}

omit [Floats F]

theorem view_additions : ∀ {edges : List (ReadEdge F)} {g : OpenGraph F} {now : ℕ → UInt32},
    (run (OpenGraph.step bits) g (edges.mapIdx fun k e => .change (e.change (now k)))).store.view =
      Patch.applyAll (addPatches edges now) g.store.view
  | [], _, _ => rfl
  | e :: edges, g, now => by
    have ih := @view_additions edges (g.step bits (.change (e.change (now 0)))) fun k => now (k + 1)
    unfold addPatches at ih ⊢
    rw [List.mapIdx_cons, List.mapIdx_cons, Run.run_cons, Patch.applyAll_cons, ih]
    congr 1
    exact GraphStore.view_addEdgeInternal ..

theorem synced_additions (h : g.Synced bits) :
    (run (OpenGraph.step bits) g (edges.mapIdx fun k e => .change (e.change (now k)))).Synced bits := by
  refine OpenGraph.synced_after h ?_
  have hcounts : ∀ (ops : List (GraphOp F)) (g : OpenGraph F), (∀ o ∈ ops, ∃ c, o = .change c) →
      Along (OpenGraph.step bits) (OpenGraph.Counts bits) g ops := by
    intro ops
    induction ops with
    | nil => exact fun _ _ => trivial
    | cons o ops ih =>
      intro g ho
      obtain ⟨c, rfl⟩ := ho o List.mem_cons_self
      exact ⟨trivial, ih _ fun o' ho' => ho o' (List.mem_cons_of_mem _ ho')⟩
  refine hcounts _ g fun o ho => ?_
  obtain ⟨k, hk, rfl⟩ := List.mem_mapIdx.mp ho
  exact ⟨_, rfl⟩

variable (bits) in
/-- An edge has the weight of one that was added, or none was added and it has what it had. -/
theorem weightOf_additions (edges : List (ReadEdge F)) (g : OpenGraph F) (now : ℕ → UInt32) (k : EdgeKey) :
    (∃ e ∈ edges, e.Writes k ∧
      weightOf (run (OpenGraph.step bits) g (edges.mapIdx fun k e => .change (e.change (now k)))).store k =
        some e.weight) ∨
    (∀ e ∈ edges, ¬ e.Writes k) ∧
      weightOf (run (OpenGraph.step bits) g (edges.mapIdx fun k e => .change (e.change (now k)))).store k =
        weightOf g.store k := by
  unfold weightOf
  rw [view_additions]
  by_cases ht : Patch.Touched (addPatches edges now) k
  · obtain ⟨p, hp, hk⟩ := Patch.exists_applyAll_of_touched (m := g.store.view) ht
    obtain ⟨i, hi, rfl⟩ := List.mem_mapIdx.mp hp
    unfold GraphStore.addPatch at hk
    split at hk
    · next hwrites =>
      rw [← Option.some.inj hk]
      exact .inl ⟨edges[i], List.getElem_mem hi, hwrites, rfl⟩
    · cases hk
  · refine .inr ⟨fun e he hwrites => ht ?_, by rw [Patch.applyAll_of_not_touched ht]⟩
    obtain ⟨i, hi, rfl⟩ := List.getElem_of_mem he
    refine ⟨_, List.mem_mapIdx.mpr ⟨i, hi, rfl⟩, ?_⟩
    have hpatch : GraphStore.addPatch edges[i].fromId edges[i].toId edges[i].type edges[i].weight (now i) k =
        some (some (edges[i].weight, now i)) := if_pos hwrites
    rw [hpatch]
    exact Option.some_ne_none _

theorem mem_getAllEdges (u : Unspecified) {g : GraphStore F} {e : GraphEdge F} :
    e ∈ getAllEdges u g ↔ ∃ id, e ∈ g.getEdges id := by
  constructor
  · intro h
    obtain ⟨id, -, he⟩ := List.mem_flatMap.mp h
    exact ⟨id, he⟩
  · rintro ⟨id, he⟩
    refine List.mem_flatMap.mpr ⟨id, (u.perm _).mem_iff.mpr ?_, he⟩
    by_contra hno
    rw [GraphStore.getEdges, AList.lookup_eq_none.mpr hno] at he
    cases he

end Imports

/-! ### The round trip -/

/-- A backup keeps the edge. -/
def Portable (e : GraphEdge F) : Prop := e.type ∈ EdgeType.named ∧ (nf.widen e.weight).isSome = true

instance (e : GraphEdge F) : Decidable (Portable nf e) := inferInstanceAs (Decidable (_ ∧ _))

/-- The import has every edge of the exported graph with its weight, and the others as they
were; and so has a store that is opened on its directory. -/
def Restores (bits : FloatBits F) (s : GraphStore F) (t t' : OpenGraph F) : Prop :=
  ∀ k, weightOf t'.store k = (weightOf s k).or (weightOf t.store k) ∧
    weightOf (GraphStore.recover bits t'.dir) k = (weightOf s k).or (weightOf t.store k)

/-- The backup of the graph after the calls, whose edges are written in the order of `u`, is
restored over the graph after any others. -/
def RestoredOver (bits : FloatBits F) (u : Unspecified) (os : List (GraphOp F)) : Prop :=
  ∀ os', Along (OpenGraph.step bits) (OpenGraph.Counts bits) {} os' → ∀ now,
    Restores bits (run (OpenGraph.step bits) {} os).store (run (OpenGraph.step bits) {} os')
      (importGraph nf bits (run (OpenGraph.step bits) {} os')
        (exportGraph nf u (run (OpenGraph.step bits) {} os).store) now).1

section RoundTrip

variable {nf} {bits : FloatBits F} {s : GraphStore F} {u : Unspecified}

omit [Floats F] in
theorem weightOf_of_mem (h : s.WellFormed) {e : GraphEdge F} (he : e ∈ getAllEdges u s) {k : EdgeKey}
    (hk : k = e.key ∨ e.type.undirected = true ∧ k = e.key.flip) : weightOf s k = some e.weight := by
  obtain ⟨id, he⟩ := (mem_getAllEdges u).mp he
  have hview : s.view e.key = some (e.weight, e.createdAt) := (h.mem_getEdges.mp he).2
  rcases hk with rfl | ⟨hu, rfl⟩
  · rw [weightOf, hview]
    rfl
  · rw [weightOf, h.symm e.key hu, hview]
    rfl

omit [Floats F] in
theorem exists_mem_of_weightOf (h : s.WellFormed) {k : EdgeKey} {w : F} (hw : weightOf s k = some w) :
    ∃ e ∈ getAllEdges u s, e.key = k ∧ e.weight = w := by
  obtain ⟨v, hv, rfl⟩ := Option.map_eq_some_iff.mp hw
  have he : (⟨k.fromId, k.toId, k.type, v.1, v.2⟩ : GraphEdge F) ∈ s.getEdges k.fromId := h.mem_getEdges.mpr ⟨rfl, hv⟩
  exact ⟨_, (mem_getAllEdges u).mpr ⟨_, he⟩, rfl, rfl⟩

omit [Floats F] in
/-- An edge that has a name is written where it was. -/
theorem writes_reread {e : GraphEdge F} (hn : e.type ∈ EdgeType.named) (k : EdgeKey) :
    (reread e).Writes k ↔ k = e.key ∨ e.type.undirected = true ∧ k = e.key.flip := by
  have htype : (reread e).type = e.type := by
    rw [reread, edgeTypeFromString_toString, if_pos hn]
  unfold ReadEdge.Writes
  rw [htype]
  rfl

omit [Floats F] in
/-- What is read has a name. -/
theorem type_of_writes {e : GraphEdge F} {k : EdgeKey} (h : (reread e).Writes k) : k.type ∈ EdgeType.named := by
  have hnamed : (reread e).type ∈ EdgeType.named := by
    rw [reread, edgeTypeFromString_toString]
    by_cases hn : e.type ∈ EdgeType.named
    · rw [if_pos hn]
      exact hn
    · rw [if_neg hn]
      exact List.mem_cons_self
  rcases h with rfl | ⟨-, rfl⟩ <;> exact hnamed

/-- **A backup of a graph restores it exactly if all of its edges are portable**: each has a
type with a name and a finite weight. For the graph after any calls, written in any order:
an import over any graph leaves every edge of the backup with its weight and the others as
they were, in memory and after a restart, if and only if the edges are portable. -/
theorem restored_iff (hnf : nf.Lawful) (bits : FloatBits F) (u : Unspecified) (os : List (GraphOp F))
    (hc : Along (OpenGraph.step bits) (OpenGraph.Counts bits) {} os) : RestoredOver nf bits u os ↔
      ∀ e ∈ getAllEdges u (run (OpenGraph.step bits) {} os).store, Portable nf e := by
  unfold RestoredOver
  have hwf : (run (OpenGraph.step bits) {} os).store.WellFormed := (OpenGraph.synced_run hc).wellFormed
  generalize (run (OpenGraph.step bits) {} os).store = s at hwf
  unfold importGraph
  rw [readEdges_exportGraph nf hnf]
  constructor
  · intro h
    -- over the empty graph, an edge that is there was written
    have hwritten : ∀ e ∈ getAllEdges u s, ∃ e' ∈ getAllEdges u s,
        (nf.widen e'.weight).isSome = true ∧ (reread e').Writes e.key ∧ e'.weight = e.weight := by
      intro e he
      have hweight := (h [] trivial (fun _ => 0) e.key).1
      rw [weightOf_of_mem hwf he (.inl rfl)] at hweight
      rcases weightOf_additions bits _ {} (fun _ => 0) e.key with ⟨r, hr, hw, hwr⟩ | ⟨-, hnone⟩
      · obtain ⟨e', he', rfl⟩ := List.mem_map.mp hr
        obtain ⟨he', hf⟩ := List.mem_filter.mp he'
        exact ⟨e', he', hf, hw, Option.some.inj (hwr.symm.trans hweight)⟩
      · cases hnone.symm.trans hweight
    intro e he
    obtain ⟨e', he', hf, hw, hsame⟩ := hwritten e he
    exact ⟨type_of_writes hw, hsame ▸ hf⟩
  · intro hall os' hc' now
    have hfinite : (getAllEdges u s).filter (fun e => (nf.widen e.weight).isSome) = getAllEdges u s :=
      List.filter_eq_self.mpr fun e he => (hall e he).2
    rw [hfinite]
    have hview := (@synced_additions _ _ _ ((getAllEdges u s).map reread) now (OpenGraph.synced_run hc')).view
    have hmemory : ∀ k, weightOf (run (OpenGraph.step bits) (run (OpenGraph.step bits) {} os')
        (((getAllEdges u s).map reread).mapIdx fun k e => .change (e.change (now k)))).store k =
          (weightOf s k).or (weightOf (run (OpenGraph.step bits) {} os').store k) := by
      intro k
      rcases weightOf_additions bits ((getAllEdges u s).map reread) (run (OpenGraph.step bits) {} os') now k with
        ⟨r, hr, hw, hwr⟩ | ⟨hnone, hsame⟩
      · obtain ⟨e, he, rfl⟩ := List.mem_map.mp hr
        rw [hwr, weightOf_of_mem hwf he ((writes_reread (hall e he).1 k).mp hw)]
        rfl
      · have hs : weightOf s k = none := by
          by_contra hsome
          obtain ⟨w, hw⟩ := Option.ne_none_iff_exists'.mp hsome
          obtain ⟨e, he, rfl, -⟩ := exists_mem_of_weightOf (u := u) hwf hw
          exact hnone _ (List.mem_map_of_mem he) ((writes_reread (hall e he).1 _).mpr (.inl rfl))
        rw [hsame, hs, Option.none_or]
    intro k
    refine ⟨hmemory k, ?_⟩
    rw [← hmemory k, weightOf, weightOf, GraphStore.view_recover, ← hview]

end RoundTrip

end Graphs

/-- A walk through the table in its order. -/
def inOrder : Unspecified := ⟨fun l => l, fun _ => .refl _, fun _ => (0, 0)⟩

/-- A relation, and an edge of a type that may be without a name. -/
def twoEdges (type : EdgeType) : List (GraphOp UInt32) :=
  [.change (.addEdge 1 2 .related 0 10), .change (.addEdge 2 3 type 0 11)]

open Amind.Vector.ColdStore (rawBits)

theorem restored_twoEdges : RestoredOver zeros rawBits inOrder (twoEdges .caused) :=
  (restored_iff lawful_zeros rawBits inOrder (twoEdges .caused) ⟨trivial, trivial, trivial⟩).mpr (by decide +kernel)

end GraphBackup
end Memory
end Amind
