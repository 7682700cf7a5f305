/-
# A load that fails

A file of the index may be cut or damaged. The caller takes it that a load that
fails leaves the index as it was, and then inserts whatever is missing from it.
But only what is wrong with the header is found before the nodes are cleared.
Later the index is filled as the file is read, and it stays as it is where the
file cannot be read on, or where the checksum, which is compared last, is wrong.

`failsClean_iff` says when a failed load leaves the index alone: when the header
is refused, or when the index is just what the front of the file says, as far as
it can be read.

Key definitions: `HNSWIndex.FailsClean`, `HNSWIndex.CleanWhen`.
-/
import Amind.Vector.IndexFile

namespace Amind
namespace Vector
namespace HNSWIndex

open Amind.Core LittleEndian ByteReader

variable {F : Type} (bits : FloatBits F)

/-! ### What is in the file -/

/-- A node in the file, read as a whole. -/
def node (dimension : ℕ) : Reader (UInt64 × Node F) := do
  let (id, level, deleted) ← nodeHeader
  let vector ← bits.vector dimension
  let connections ← times connectionList (level + 1).toNat
  pure (id, ⟨vector, level, deleted, connections⟩)

/-- The header and what follows it, if the index takes the file for one of its
own. -/
def accepts (x : HNSWIndex F) (file : List UInt8) : Option (Header × List UInt8) :=
  (header file).filter fun p =>
    p.1.magic = hnswMagic ∧ p.1.version = hnswVersion ∧ p.1.dimension = x.config.dimension

/-- The nodes at the front that are whole, as many as the header says at most. -/
def wholeNodes (x : HNSWIndex F) (h : Header) (bs : List UInt8) : List (UInt64 × Node F) :=
  upTo (node bits x.config.dimension) h.nodeCount bs

/-- A header and nodes that say what the index is. Of nodes of one id it is the
first. -/
structure Describes (h : Header) (ps : List (UInt64 × Node F)) (x : HNSWIndex F) : Prop where
  nodes : ∀ id, x.getNode id = (ps.find? fun p => p.1 = id).map (·.2)
  entryPointId : x.entryPointId = UInt64.ofNat h.entryPointId
  maxLevel : x.maxLevel = h.maxLevel
  activeCount : x.activeCount = ps.countP fun p => !p.2.deleted

/-- A load of the file that fails leaves the index as it was. -/
def FailsClean (x : HNSWIndex F) (file : List UInt8) : Prop := ∀ x', x.load bits file = some (false, x') → Same x x'

/-- The header is refused, or the file is whole, or a level in it throws, or the
index is what the whole nodes at its front say. -/
def CleanWhen (x : HNSWIndex F) (file : List UInt8) : Prop :=
  ∀ h bs, x.accepts file = some (h, bs) →
    ((wholeNodes bits x h bs).length = h.nodeCount ∧ checksumOk file = true) ∨
    (∃ p ∈ wholeNodes bits x h bs, p.2.level < -1) ∨ Describes h (wholeNodes bits x h bs) x

variable {bits} {x y : HNSWIndex F}

/-! ### Reading the nodes -/

theorem node_eq (dimension : ℕ) (bs : List UInt8) : node bits dimension bs =
    (nodeHeader bs).bind fun p => (bits.vector dimension p.2).bind fun q =>
      (times connectionList (p.1.2.1 + 1).toNat q.2).bind fun r =>
        some ((p.1.1, (⟨q.1, p.1.2.1, p.1.2.2, r.1⟩ : Node F)), r.2) := rfl

/-- The nodes that are whole are put, unless a level throws. -/
theorem loadNodes_eq : ∀ (count : ℕ) (y : HNSWIndex F) (bs : List UInt8),
    loadNodes bits count y bs =
      if ∃ p ∈ upTo (node bits y.config.dimension) count bs, p.2.level < -1 then none
      else some (decide ((upTo (node bits y.config.dimension) count bs).length = count),
        (upTo (node bits y.config.dimension) count bs).foldl emplace y)
  | 0, y, bs => by simp [loadNodes, upTo]
  | count + 1, y, bs => by
    unfold loadNodes upTo
    rw [node_eq]
    cases hheader : nodeHeader bs with
    | none => simp
    | some p =>
      obtain ⟨⟨id, level, deleted⟩, rest⟩ := p
      rw [Option.bind_some]
      dsimp only
      cases hvec : bits.vector y.config.dimension rest with
      | none => simp
      | some q =>
        obtain ⟨vector, rest⟩ := q
        rw [Option.bind_some]
        dsimp only
        by_cases hlevel : level < -1
        · -- a node of such a level has no lists to read
          have hzero : (level + 1).toNat = 0 := by omega
          have hnone : times connectionList 0 rest = some ([], rest) := rfl
          rw [if_pos hlevel, hzero, hnone]
          simp [hlevel]
        · rw [if_neg hlevel]
          cases hlists : times connectionList (level + 1).toNat rest with
          | none => simp
          | some r =>
            obtain ⟨connections, rest⟩ := r
            rw [Option.bind_some]
            dsimp only
            rw [loadNodes_eq count]
            have hdim : (y.emplace (id, ⟨vector, level, deleted, connections⟩)).config.dimension =
              y.config.dimension := rfl
            rw [hdim]
            simp only [List.exists_mem_cons_iff, List.length_cons, List.foldl_cons, Nat.add_right_cancel_iff, hlevel,
              false_or]

theorem getNode_emplace (p : UInt64 × Node F) (id : UInt64) :
    (y.emplace p).getNode id = (y.getNode id).or (if p.1 = id then some p.2 else none) := by
  show AList.lookup id (if (y.getNode p.1).isSome then y.nodes else y.nodes.insert p.1 p.2) = _
  cases hn : y.getNode p.1 with
  | some n =>
    by_cases hid : p.1 = id
    · subst hid
      rw [hn, Option.some_or]
      exact hn
    · rw [if_neg hid, Option.or_none]
      rfl
  | none =>
    by_cases hid : p.1 = id
    · subst hid
      rw [hn, if_pos rfl, Option.none_or]
      exact AList.lookup_insert _
    · rw [if_neg hid, Option.or_none]
      exact AList.lookup_insert_ne (Ne.symm hid)

/-- An index into which nodes are put has the first of every id. -/
theorem getNode_emplaces (id : UInt64) : ∀ (ps : List (UInt64 × Node F)) (y : HNSWIndex F),
    (ps.foldl emplace y).getNode id = (y.getNode id).or ((ps.find? fun p => p.1 = id).map (·.2))
  | [], y => by simp
  | p :: ps, y => by
    rw [List.foldl_cons, getNode_emplaces id ps, getNode_emplace, List.find?_cons, Option.or_assoc]
    by_cases hid : p.1 = id
    · simp [hid]
    · simp [hid]

theorem counts_emplaces : ∀ (ps : List (UInt64 × Node F)) (y : HNSWIndex F),
    (ps.foldl emplace y).activeCount = y.activeCount + ps.countP (fun p => !p.2.deleted) ∧
      (ps.foldl emplace y).entryPointId = y.entryPointId ∧ (ps.foldl emplace y).maxLevel = y.maxLevel
  | [], y => ⟨rfl, rfl, rfl⟩
  | p :: ps, y => by
    obtain ⟨hcount, hentry, hmax⟩ := counts_emplaces ps (y.emplace p)
    refine ⟨?_, hentry, hmax⟩
    rw [List.foldl_cons, hcount, List.countP_cons]
    unfold emplace
    cases p.2.deleted <;> simp [Nat.add_assoc, Nat.add_comm]

/-- An index that is the same as one without nodes has the shape of one. -/
theorem Same.shaped_new {config : HNSWConfig F} (h : Same { config := config } x) : x.Shaped := by
  have hnone : ∀ id, x.getNode id = none := h.nodes
  have hkeys : x.nodes.keys = [] := keys_eq_nil_iff.mpr hnone
  have hno : ∀ {id : UInt64} {n : Node F} {P : Prop}, x.getNode id = some n → P := by
    intro id n P hn
    rw [hnone] at hn
    cases hn
  refine ⟨?_, fun _ => h.maxLevel, fun hne => absurd hkeys hne, fun _ _ hn => hno hn, fun _ _ hn => hno hn,
    fun _ _ hn => hno hn, fun _ _ hn => hno hn⟩
  have hactive : x.activeIds = ∅ := by
    unfold activeIds
    rw [hkeys]
    rfl
  rw [hactive]
  exact h.activeCount

/-! ### When a failed load leaves the index alone -/

/-- The index that the nodes are put into. -/
def cleared (x : HNSWIndex F) (h : Header) : HNSWIndex F := ⟨x.config, ∅, UInt64.ofNat h.entryPointId, h.maxLevel, 0⟩

theorem same_emplaces_iff {h : Header} {ps : List (UInt64 × Node F)} :
    Same x (ps.foldl emplace (x.cleared h)) ↔ Describes h ps x := by
  have hget : ∀ id, (ps.foldl emplace (x.cleared h)).getNode id = (ps.find? fun p => p.1 = id).map (·.2) :=
    fun id => getNode_emplaces id ps _
  obtain ⟨hcount, hentry, hmax⟩ := counts_emplaces ps (x.cleared h)
  have hcount' : (ps.foldl emplace (x.cleared h)).activeCount = ps.countP (fun p => !p.2.deleted) :=
    hcount.trans (Nat.zero_add _)
  constructor
  · intro hs
    exact ⟨fun id => (hs.nodes id).symm.trans (hget id), hs.entryPointId.symm.trans hentry, hs.maxLevel.symm.trans hmax,
      hs.activeCount.symm.trans hcount'⟩
  · intro hd
    exact ⟨fun id => (hget id).trans (hd.nodes id).symm, hentry.trans hd.entryPointId.symm, hmax.trans hd.maxLevel.symm,
      hcount'.trans hd.activeCount.symm⟩

theorem load_refused {file : List UInt8} (h : x.accepts file = none) : x.load bits file = some (false, x) := by
  unfold load
  cases hheader : header file with
  | none => rfl
  | some p =>
    obtain ⟨h', bs⟩ := p
    unfold accepts at h
    rw [hheader, Option.filter_some] at h
    have hno : ¬(h'.magic = hnswMagic ∧ h'.version = hnswVersion ∧ h'.dimension = x.config.dimension) := by
      intro hall
      rw [if_pos (decide_eq_true hall)] at h
      cases h
    dsimp only
    by_cases hmagic : h'.magic = hnswMagic
    · by_cases hversion : h'.version = hnswVersion
      · have hdim : h'.dimension ≠ x.config.dimension := fun hdim => hno ⟨hmagic, hversion, hdim⟩
        rw [if_neg (not_not.mpr hmagic), if_neg (not_not.mpr hversion), if_pos hdim]
      · rw [if_neg (not_not.mpr hmagic), if_pos hversion]
    · rw [if_pos hmagic]

theorem load_accepted {file bs : List UInt8} {h : Header} (ha : x.accepts file = some (h, bs)) :
    x.load bits file =
      if ∃ p ∈ wholeNodes bits x h bs, p.2.level < -1 then none
      else some (decide ((wholeNodes bits x h bs).length = h.nodeCount) && checksumOk file,
        (wholeNodes bits x h bs).foldl emplace (x.cleared h)) := by
  obtain ⟨hheader, hall⟩ := Option.filter_eq_some_iff.mp ha
  obtain ⟨hmagic, hversion, hdim⟩ := of_decide_eq_true hall
  unfold load
  rw [hheader]
  dsimp only at hmagic hversion hdim ⊢
  rw [if_neg (not_not.mpr hmagic), if_neg (not_not.mpr hversion), if_neg (not_not.mpr hdim), loadNodes_eq]
  unfold wholeNodes cleared
  dsimp only
  split <;> rfl

theorem config_load {file : List UInt8} {ok : Bool} {x' : HNSWIndex F} (h : x.load bits file = some (ok, x')) :
    x'.config = x.config := by
  cases ha : x.accepts file with
  | none =>
    rw [load_refused ha] at h
    rw [← (Prod.mk.inj (Option.some.inj h)).2]
  | some p =>
    rw [load_accepted ha] at h
    split at h
    · cases h
    · rw [← (Prod.mk.inj (Option.some.inj h)).2]
      exact List.foldlRecOn (motive := fun y : HNSWIndex F => y.config = x.config) _ _ rfl fun _ hy _ _ => hy

/-- **When a failed load leaves the index as it was.** -/
theorem failsClean_iff (file : List UInt8) : FailsClean bits x file ↔ CleanWhen bits x file := by
  unfold FailsClean CleanWhen
  cases ha : x.accepts file with
  | none =>
    rw [load_refused ha]
    refine iff_of_true (fun x' hx' => ?_) (fun h bs h' => ?_)
    · rw [← (Prod.mk.inj (Option.some.inj hx')).2]
      exact ⟨fun _ => rfl, rfl, rfl, rfl⟩
    · cases h'
  | some p =>
    obtain ⟨h, bs⟩ := p
    rw [load_accepted ha]
    have hforall : ∀ {P : Header → List UInt8 → Prop},
        (∀ h' bs', some (h, bs) = some (h', bs') → P h' bs') ↔ P h bs := by
      intro P
      refine ⟨fun hall => hall h bs rfl, fun hP h' bs' heq => ?_⟩
      obtain ⟨rfl, rfl⟩ := Prod.mk.inj (Option.some.inj heq)
      exact hP
    rw [hforall]
    by_cases hthrows : ∃ p ∈ wholeNodes bits x h bs, p.2.level < -1
    · rw [if_pos hthrows]
      refine iff_of_true (fun x' hx' => ?_) (.inr (.inl hthrows))
      cases hx'
    · rw [if_neg hthrows, ← same_emplaces_iff]
      by_cases hwhole : (wholeNodes bits x h bs).length = h.nodeCount ∧ checksumOk file = true
      · have htrue : (decide ((wholeNodes bits x h bs).length = h.nodeCount) && checksumOk file) = true := by
          rw [Bool.and_eq_true]
          exact ⟨decide_eq_true hwhole.1, hwhole.2⟩
        rw [htrue]
        refine iff_of_true (fun x' hx' => ?_) (.inl hwhole)
        have hfalse := (Prod.mk.inj (Option.some.inj hx')).1
        cases hfalse
      · have hfalse : (decide ((wholeNodes bits x h bs).length = h.nodeCount) && checksumOk file) = false := by
          rw [Bool.eq_false_iff, Ne, Bool.and_eq_true, decide_eq_true_eq]
          exact hwhole
        rw [hfalse]
        refine ⟨fun hclean => .inr (.inr (hclean _ rfl)), fun hcond x' hx' => ?_⟩
        rw [← (Prod.mk.inj (Option.some.inj hx')).2]
        exact (hcond.resolve_left hwhole).resolve_left hthrows

end HNSWIndex
end Vector
end Amind
