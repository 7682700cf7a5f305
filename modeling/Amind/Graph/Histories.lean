/-
# Histories of one graph store

The calls of a store one after the other, each with its file operations, and the
directory opened anew at any time. Between two calls the directory is read as the
edges of the store (`Synced`): a new store on it has the same edges
(`recover_history`), and what a crash in the middle of a checkpoint loses is
decided by the order of its file operations alone (`crash_iff`).

`inStep_run` says what the two tables of a store keep, whatever the directories
hold that it is recovered from.
-/
import Amind.Graph.Wal
import Amind.Lib.Run

namespace Amind
namespace Graph

open Journal GraphStore
open Run (run Along)
open Amind.Vector (FloatBits)

/-- A store and its directory. -/
structure OpenGraph (F : Type) where
  store : GraphStore F := {}
  dir : Dir := {}

inductive GraphOp (F : Type)
  | change (c : Change F)
  | checkpoint (u : Unspecified)
  | reopen

/-- The record writes the edge. -/
def WalRecord.Writes (r : WalRecord) (k : EdgeKey) : Prop :=
  r.op = addEdge ∧ (k = ⟨r.fromId, r.toId, EdgeType.ofByte r.edgeType⟩ ∨
      (EdgeType.ofByte r.edgeType).undirected = true ∧ k = ⟨r.toId, r.fromId, EdgeType.ofByte r.edgeType⟩) ∨
    r.op = removeEdge ∧ (k.fromId = r.fromId ∨ k.toId = r.fromId)

namespace OpenGraph

variable {F : Type} (bits : FloatBits F) (s : OpenGraph F)

/-- The snapshot file a checkpoint writes. -/
def snapshot (u : Unspecified) : Bytes := snapshotBytes u.padding (s.store.gather bits u)

def step (s : OpenGraph F) : GraphOp F → OpenGraph F
  | .change c => ⟨c.applyTo s.store, s.dir.append (c.record bits).encode⟩
  | .checkpoint u => ⟨s.store, s.dir.checkpoint (s.snapshot bits u)⟩
  | .reopen => ⟨recover bits s.dir, s.dir⟩

/-- A checkpoint writes fewer edges than a counter of 64 bits can count. -/
def Counts (s : OpenGraph F) : GraphOp F → Prop
  | .checkpoint u => (s.store.gather bits u).length < 2 ^ 64
  | _ => True

instance : ∀ o, Decidable (s.Counts bits o)
  | .change _ => inferInstanceAs (Decidable True)
  | .checkpoint u => inferInstanceAs (Decidable ((s.store.gather bits u).length < 2 ^ 64))
  | .reopen => inferInstanceAs (Decidable True)

/-- Between two calls: the log is whole, and the directory is read as the edges
of the store. -/
structure Synced : Prop where
  wellFormed : s.store.WellFormed
  whole : ∃ rs : List WalRecord, s.dir.wal = rs.flatMap WalRecord.encode
  view : s.store.view = (reading bits).view s.dir

/-- Every edge of the snapshot is written by a record of the log. -/
def Covered : Prop :=
  ∀ id, ∀ e ∈ (recover bits { s.dir with wal := [] }).getEdges id, ∃ r ∈ replay s.dir.wal, r.Writes e.key

variable {bits s}

theorem recordPatch_ne_none {r : WalRecord} {k : EdgeKey} : recordPatch bits r k ≠ none ↔ r.Writes k := by
  have hite : ∀ {p : Prop} [Decidable p] {v : Option (F × UInt32)}, (if p then some v else none) ≠ none ↔ p := by
    intro p _ v
    by_cases hp : p <;> simp [hp]
  unfold recordPatch WalRecord.Writes
  by_cases hadd : r.op = WalRecord.addEdge
  · have hne : ¬ r.op = WalRecord.removeEdge := by rw [hadd]; decide
    rw [if_pos hadd, addPatch, hite]
    simp only [hadd, true_and]
    exact ⟨Or.inl, fun h => h.resolve_right fun hr => hne (hadd.trans hr.1)⟩
  · rw [if_neg hadd]
    by_cases hremove : r.op = WalRecord.removeEdge
    · rw [if_pos hremove, dropPatch, hite]
      exact ⟨fun h => Or.inr ⟨hremove, h⟩, fun h => (h.resolve_left fun hl => hadd hl.1).2⟩
    · rw [if_neg hremove]
      exact ⟨fun h => absurd rfl h, fun h => (h.elim (fun hl => hadd hl.1) fun hr => hremove hr.1).elim⟩

theorem synced_fresh : (⟨{}, {}⟩ : OpenGraph F).Synced bits where
  wellFormed := wellFormed_empty
  whole := ⟨[], rfl⟩
  view := rfl

theorem Synced.step (h : s.Synced bits) {o : GraphOp F} (hc : s.Counts bits o) : (s.step bits o).Synced bits := by
  obtain ⟨rs, hrs⟩ := h.whole
  cases o with
  | change c =>
    have hwf : (s.store.replayRecord bits (c.record bits)).WellFormed := h.wellFormed.replayRecord _
    have hwal : (s.dir.append (c.record bits).encode).wal = (rs ++ [c.record bits]).flatMap WalRecord.encode := by
      simp [Dir.append, hrs]
    refine ⟨?_, ⟨_, hwal⟩, ?_⟩
    · show (c.applyTo s.store).WellFormed
      rwa [applyTo_eq]
    · have hview := h.view
      unfold Reading.view at hview ⊢
      show (c.applyTo s.store).view = Patch.applyAll ((replay (s.dir.append _).wal).map (recordPatch bits)) _
      rw [applyTo_eq, view_replayRecord h.wellFormed, hview, hwal, replay_encode, List.map_append,
        List.map_singleton, Patch.applyAll_concat]
      show _ = (recordPatch bits (c.record bits)).apply (Patch.applyAll (rs.map (recordPatch bits)) _)
      rw [← replay_encode rs, ← hrs]
      rfl
  | checkpoint u =>
    have hbase := base_snapshotBytes u h.wellFormed hc
    refine ⟨h.wellFormed, ⟨[], ?_⟩, ?_⟩
    · show (s.dir.checkpoint _).wal = _
      rw [Dir.checkpoint_eq]
      rfl
    · show s.store.view = (reading bits).view (s.dir.checkpoint _)
      rw [h.view] at hbase ⊢
      exact (Reading.view_checkpoint hbase).symm
  | reopen => exact ⟨wellFormed_recover _, ⟨rs, hrs⟩, view_recover _⟩

theorem synced_after (h : s.Synced bits) {os : List (GraphOp F)} (hc : Along (step bits) (Counts bits) s os) :
    (run (step bits) s os).Synced bits :=
  Run.run_inv (step bits) (I := fun _ s => s.Synced bits) (fun _ _ _ h ho => h.step ho) os [] _ h hc

theorem synced_run {os : List (GraphOp F)} (hc : Along (step bits) (Counts bits) {} os) :
    (run (step bits) {} os).Synced bits := synced_after synced_fresh hc

/-- A store opened on a directory with a whole log. -/
theorem synced_recover {d : Dir} {rs : List WalRecord} (hd : d.wal = rs.flatMap WalRecord.encode) :
    (⟨recover bits d, d⟩ : OpenGraph F).Synced bits := ⟨wellFormed_recover d, ⟨rs, hd⟩, view_recover d⟩

/-- **A new store on the directory of a recovered one has its edges, with their
weights and times**, after every history. -/
theorem recover_history {d : Dir} {rs : List WalRecord} (hd : d.wal = rs.flatMap WalRecord.encode)
    {os : List (GraphOp F)} (hc : Along (step bits) (Counts bits) ⟨recover bits d, d⟩ os) :
    SameEdges (recover bits (run (step bits) ⟨recover bits d, d⟩ os).dir)
      (run (step bits) ⟨recover bits d, d⟩ os).store := by
  have hs : (run (step bits) ⟨recover bits d, d⟩ os).Synced bits := synced_after (synced_recover hd) hc
  rw [sameEdges_iff (wellFormed_recover _).toIndexed hs.wellFormed.toIndexed, view_recover, hs.view]

open Amind.Vector.ColdStore (rawBits)

/-- An undirected edge in the snapshot, its weight changed from the other end,
and a node removed. -/
def rewritten : List (GraphOp UInt32) :=
  [.change (.addEdge 1 2 .related 7 10), .change (.addEdge 2 3 .caused 8 11),
    .checkpoint ⟨fun l => l, fun _ => .refl _, fun _ => (0, 0)⟩, .change (.addEdge 2 1 .related 9 12),
      .change (.removeNode 3)]

theorem recover_rewritten :
    SameEdges (recover rawBits (run (step rawBits) ⟨recover rawBits {}, {}⟩ rewritten).dir)
      (run (step rawBits) ⟨recover rawBits {}, {}⟩ rewritten).store :=
  recover_history (show Dir.wal {} = [].flatMap WalRecord.encode from rfl) (by decide)

/-- What the snapshot alone is read as. -/
theorem view_snapshot (d : Dir) : (recover bits { d with wal := [] }).view = (reading bits).base d.snapshot :=
  view_recover _

theorem covered_iff : s.Covered bits ↔ (reading bits).Covered s.dir := by
  have hwf : (recover bits { s.dir with wal := [] }).WellFormed := wellFormed_recover _
  have htouch : ∀ k, Patch.Touched ((reading bits).patches s.dir.wal) k ↔ ∃ r ∈ replay s.dir.wal, r.Writes k := by
    intro k
    constructor
    · rintro ⟨p, hp, hk⟩
      obtain ⟨r, hr, rfl⟩ := List.mem_map.mp hp
      exact ⟨r, hr, recordPatch_ne_none.mp hk⟩
    · rintro ⟨r, hr, hk⟩
      exact ⟨_, List.mem_map_of_mem hr, recordPatch_ne_none.mpr hk⟩
  have hnone : ∀ k, (reading bits).base none k = none := fun k => rfl
  constructor
  · intro h k
    rw [htouch, hnone, ← view_snapshot]
    cases hv : (recover bits { s.dir with wal := [] }).view k with
    | none => exact Or.inr rfl
    | some v =>
      exact Or.inl (h k.fromId ⟨k.fromId, k.toId, k.type, v.1, v.2⟩ (hwf.mem_getEdges.mpr ⟨rfl, hv⟩))
  · intro h id e he
    have hv := (hwf.mem_getEdges.mp he).2
    rw [view_snapshot] at hv
    refine (htouch _).mp ((h e.key).resolve_right fun hk => ?_)
    rw [hnone, hv] at hk
    cases hk

/-- A crash in a checkpoint after any history. -/
theorem crash_iff {os : List (GraphOp F)} (hc : Along (step bits) (Counts bits) {} os) {u : Unspecified}
    (hu : Counts bits (run (step bits) {} os) (.checkpoint u)) (n : ℕ) :
    SameEdges (recover bits ((run (step bits) {} os).dir.crash ((run (step bits) {} os).snapshot bits u) n))
        (run (step bits) {} os).store ↔
      ¬ ((run (step bits) {} os).dir.snapshot.isSome ∧ n = 2) ∨ (run (step bits) {} os).Covered bits := by
  have hs := synced_run hc
  have hbase := base_snapshotBytes u hs.wellFormed hu
  rw [hs.view] at hbase
  rw [sameEdges_iff (wellFormed_recover _).toIndexed hs.wellFormed.toIndexed, view_recover, hs.view, covered_iff]
  exact Reading.crash_iff hbase n

end OpenGraph

/-! ### The representation -/

namespace GraphStore

variable {F : Type} (bits : FloatBits F) (g : GraphStore F)

/-- The snapshot and the log of a directory on top of the store. -/
def recoverOnto (g : GraphStore F) (d : Dir) : GraphStore F :=
  (replay d.wal).foldl (replayRecord bits) ((loadSnapshot d.snapshot).foldl (loadEdge bits) g)

inductive StoreOp (F : Type)
  | change (c : Change F)
  | recover (d : Dir)

def perform (g : GraphStore F) : StoreOp F → GraphStore F
  | .change c => c.applyTo g
  | .recover d => g.recoverOnto bits d

/-- The two tables are in step. -/
structure InStep : Prop extends g.Indexed where
  /-- The reverse of an edge of an undirected type is there, with its weight and
  time. -/
  reversed : ∀ id, ∀ e ∈ g.getEdges id, e.type.undirected = true →
    ⟨e.toId, e.fromId, e.type, e.weight, e.createdAt⟩ ∈ g.getEdges e.toId

/-- No edge and no list of sources mentions the node. -/
structure Forgets (id : UInt64) : Prop where
  edges : ∀ id', ∀ e ∈ g.getEdges id', e.fromId ≠ id ∧ e.toId ≠ id
  none : g.getEdges id = []
  sources : g.sources id = []
  listed : ∀ id', id ∉ g.sources id'

variable {bits g}

theorem WellFormed.inStep (h : g.WellFormed) : g.InStep where
  toIndexed := h.toIndexed
  reversed := fun id e he hu => by
    rw [h.mem_getEdges] at he ⊢
    exact ⟨rfl, (h.symm e.key hu).trans he.2⟩

theorem WellFormed.perform (h : g.WellFormed) (o : StoreOp F) : (g.perform bits o).WellFormed := by
  cases o with
  | change c =>
    show (c.applyTo g).WellFormed
    have heq : c.applyTo g = g.replayRecord bits (c.record bits) := applyTo_eq c
    rw [heq]
    exact h.replayRecord _
  | recover d => exact (replay_spec _ (load_spec _ h).1).1

theorem WellFormed.forgets (h : g.WellFormed) (id : UInt64) : (g.dropNode id).Forgets id := by
  have hedges := getEdges_dropNode g fun id' (hs : id' ∉ g.sources id) => h.toId_ne hs
  have hsources := sources_dropNode g id
  have hnone : (g.dropNode id).getEdges id = [] := by rw [hedges, if_pos rfl]
  refine ⟨fun id' e he => ?_, hnone, ?_, fun id' hin => ?_⟩
  · rw [hedges] at he
    split at he
    · cases he
    · rename_i hid
      obtain ⟨he, hto⟩ := List.mem_filter.mp he
      exact ⟨fun hfrom => hid ((h.own id' e he).symm.trans hfrom), of_decide_eq_true hto⟩
  · simp [hsources]
  · rw [hsources] at hin
    split at hin
    · cases hin
    · exact of_decide_eq_true (List.mem_filter.mp hin).2 rfl

/-- **The two tables are in step after every sequence of calls, and a removed
node is mentioned nowhere.** -/
theorem inStep_run (os : List (StoreOp F)) :
    (run (perform bits) {} os).InStep ∧
      ∀ id, (run (perform bits) {} (os ++ [.change (.removeNode id)])).Forgets id := by
  have hwf : (run (perform bits) {} os).WellFormed := by
    have h := Run.run_inv (perform bits) (I := fun _ g => g.WellFormed) (C := fun _ _ => True)
      (fun _ _ o h _ => h.perform o) os [] {} wellFormed_empty (Run.along_true _ _)
    exact h
  refine ⟨hwf.inStep, fun id => ?_⟩
  rw [Run.run_concat]
  exact hwf.forgets id

end GraphStore
end Graph
end Amind
