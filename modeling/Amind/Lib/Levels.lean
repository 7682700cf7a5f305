/-
# Breadth-first searches with a bound on the depth

A search takes the first node of its queue with the depth at which it was
queued. Below the bound it queues those of the next nodes that were not met, one
deeper; at the bound it goes on with the rest of the queue. A node counts as met
from the moment it is queued.

`search_exact` says what is taken: the nodes whose shortest way from the start
is not longer than the bound, each once and with the length of that way, in the
order of the lengths. The graph is any function, cycles and all. What is asked of
it is a list of all its targets, for the number of turns.
-/
import Mathlib.Data.List.Perm.Subperm
import Mathlib.Data.Nat.Find
import Amind.Lib.Breadth

namespace Amind
namespace Levels

open Breadth

variable {α : Type}

/-! ### Distances -/

/-- A way of so many steps. -/
inductive Way (next : α → List α) (s : α) : ℕ → α → Prop
  | here : Way next s 0 s
  | step {k : ℕ} {a b : α} (h : Way next s k a) (hb : b ∈ next a) : Way next s (k + 1) b

/-- The shortest way has so many steps. -/
def AtDistance (next : α → List α) (s : α) (k : ℕ) (a : α) : Prop := Way next s k a ∧ ∀ j, Way next s j a → k ≤ j

/-- A list of the nodes at distances that `p` holds of: each of them once, nearer
ones first. -/
structure Lists (next : α → List α) (s : α) (p : ℕ → Prop) (l : List α) : Prop where
  nodup : l.Nodup
  mem : ∀ a, a ∈ l ↔ ∃ k, p k ∧ AtDistance next s k a
  ordered : l.Pairwise fun a b => ∀ j k, AtDistance next s j a → AtDistance next s k b → j ≤ k

section Distance

variable {next : α → List α} {s a b : α} {j k : ℕ}

theorem AtDistance.unique (h : AtDistance next s j a) (h' : AtDistance next s k a) : j = k :=
  Nat.le_antisymm (h.2 k h'.1) (h'.2 j h.1)

theorem atDistance_self : AtDistance next s 0 s := ⟨.here, fun j _ => Nat.zero_le j⟩

/-- The last step of a shortest way starts at a node one nearer. -/
theorem AtDistance.back (h : AtDistance next s (k + 1) b) : ∃ a, AtDistance next s k a ∧ b ∈ next a := by
  obtain ⟨hway, hmin⟩ := h
  cases hway with
  | @step _ a _ ha hb =>
    refine ⟨a, ⟨ha, fun j hj => ?_⟩, hb⟩
    have := hmin (j + 1) (hj.step hb)
    omega

/-- Every way is as long as the distance at least. -/
theorem exists_atDistance (h : Way next s k a) : ∃ j ≤ k, AtDistance next s j a := by
  classical
  have hex : ∃ j, Way next s j a := ⟨k, h⟩
  exact ⟨Nat.find hex, Nat.find_min' hex h, Nat.find_spec hex, fun j hj => Nat.find_min' hex hj⟩

end Distance

/-! ### The search -/

variable [DecidableEq α] (next : α → List α) (limit : ℕ)

/-- The nodes that a search takes, with their depths. -/
def search : ℕ → List (α × ℕ) → List α → Option (List (α × ℕ))
  | _, [], _ => some []
  | 0, _ :: _, _ => none
  | turns + 1, (a, d) :: queue, visited =>
    if limit ≤ d then (search turns queue visited).map ((a, d) :: ·)
    else
      let new := fresh visited (next a)
      (search turns (queue ++ new.map fun b => (b, d + 1)) (visited ++ new)).map ((a, d) :: ·)

variable {next limit}

/-- The search takes what is queued first. -/
theorem prefix_of_search : ∀ {turns : ℕ} {queue taken : List (α × ℕ)} {visited : List α},
    search next limit turns queue visited = some taken → queue <+: taken
  | _, [], _, _, _ => List.nil_prefix
  | 0, _ :: _, _, _, h => by
    unfold search at h
    cases h
  | turns + 1, (a, d) :: queue, taken, visited, h => by
    unfold search at h
    split at h
    · obtain ⟨rest, hrest, rfl⟩ := Option.map_eq_some_iff.mp h
      exact List.cons_prefix_cons.mpr ⟨rfl, prefix_of_search hrest⟩
    · obtain ⟨rest, hrest, rfl⟩ := Option.map_eq_some_iff.mp h
      exact List.cons_prefix_cons.mpr ⟨rfl, (List.prefix_append _ _).trans (prefix_of_search hrest)⟩

/-- What holds of the nodes taken, those queued, and those met. -/
structure Taking (next : α → List α) (limit : ℕ) (s : α) (done queue : List (α × ℕ)) (visited : List α) : Prop where
  /-- What was met is taken or queued. -/
  met : visited = (done ++ queue).map Prod.fst
  nodup : visited.Nodup
  start : s ∈ visited
  /-- The depths are the distances. -/
  depths : ∀ e ∈ done ++ queue, AtDistance next s e.2 e.1
  bounded : ∀ e ∈ done ++ queue, e.2 ≤ limit
  ordered : (done ++ queue).Pairwise fun e e' => e.2 ≤ e'.2
  /-- The queue spans two depths. -/
  span : ∀ e ∈ queue.head?, ∀ e' ∈ queue, e'.2 ≤ e.2 + 1
  /-- What is next to a node that is taken was met. -/
  closed : ∀ e ∈ done, e.2 < limit → ∀ b ∈ next e.1, b ∈ visited

variable {s : α} {done queue : List (α × ℕ)} {visited : List α}

omit [DecidableEq α] in
theorem taking_start (s : α) : Taking next limit s [] [(s, 0)] [s] where
  met := rfl
  nodup := List.nodup_singleton s
  start := List.mem_singleton_self s
  depths := fun e he => by
    rw [List.mem_singleton.mp he]
    exact atDistance_self
  bounded := fun e he => by
    rw [List.mem_singleton.mp he]
    exact Nat.zero_le limit
  ordered := List.pairwise_singleton _ _
  span := fun e he e' he' => by
    rw [List.mem_singleton.mp he']
    exact Nat.zero_le _
  closed := fun e he => absurd he List.not_mem_nil

/-- All that is not farther than `d` was met, if what is not taken yet is not
nearer than `d`. -/
theorem Taking.near (h : Taking next limit s done queue visited) {d : ℕ} (hd : d ≤ limit)
    (hqueue : ∀ e ∈ queue, d ≤ e.2) : ∀ (k : ℕ) (b : α), k ≤ d → AtDistance next s k b → b ∈ visited
  | 0, b, _, hb => by
    cases hb.1
    exact h.start
  | k + 1, b, hk, hb => by
    obtain ⟨a, ha, hstep⟩ := hb.back
    have hmet := h.near hd hqueue k a (by omega) ha
    rw [h.met] at hmet
    obtain ⟨e, he, rfl⟩ := List.mem_map.mp hmet
    have hdepth : e.2 = k := (h.depths e he).unique ha
    rcases List.mem_append.mp he with he | he
    · exact h.closed e he (by omega) b hstep
    · have := hqueue e he
      omega

omit [DecidableEq α] in
/-- The first node of the queue is taken at the bound. -/
theorem Taking.skip {a : α} {d : ℕ} (h : Taking next limit s done ((a, d) :: queue) visited) (hd : limit ≤ d) :
    Taking next limit s (done ++ [(a, d)]) queue visited := by
  have hsplit : done ++ [(a, d)] ++ queue = done ++ (a, d) :: queue := by rw [List.append_assoc]; rfl
  refine ⟨hsplit ▸ h.met, h.nodup, h.start, hsplit ▸ h.depths, hsplit ▸ h.bounded, hsplit ▸ h.ordered, ?_, ?_⟩
  · intro e he e' he'
    -- all that is left is at the bound
    have hmem : e ∈ queue := List.mem_of_mem_head? he
    have hlo : d ≤ e.2 := (List.pairwise_cons.mp (List.pairwise_append.mp h.ordered).2.1).1 e hmem
    have hhi := h.bounded e' (List.mem_append_right _ (List.mem_cons_of_mem _ he'))
    omega
  · intro e he hlt
    rcases List.mem_append.mp he with he | he
    · exact h.closed e he hlt
    · rw [List.mem_singleton.mp he] at hlt
      exact absurd hlt (Nat.not_lt.mpr hd)

/-- The first node of the queue is taken, and what is next to it queued. -/
theorem Taking.expand {a : α} {d : ℕ} (h : Taking next limit s done ((a, d) :: queue) visited) (hd : d < limit) :
    Taking next limit s (done ++ [(a, d)]) (queue ++ (fresh visited (next a)).map fun b => (b, d + 1))
      (visited ++ fresh visited (next a)) := by
  have hsplit : done ++ [(a, d)] ++ (queue ++ (fresh visited (next a)).map fun b => (b, d + 1)) =
      (done ++ (a, d) :: queue) ++ (fresh visited (next a)).map fun b => (b, d + 1) := by simp
  have hnew : ∀ {e : α × ℕ}, e ∈ (fresh visited (next a)).map (fun b => (b, d + 1)) →
      e.1 ∈ next a ∧ e.1 ∉ visited ∧ e.2 = d + 1 := by
    intro e he
    obtain ⟨b, hb, rfl⟩ := List.mem_map.mp he
    exact ⟨(mem_fresh.mp hb).1, (mem_fresh.mp hb).2, rfl⟩
  have hself : AtDistance next s d a := h.depths (a, d) (by simp)
  have horder := List.pairwise_cons.mp (List.pairwise_append.mp h.ordered).2.1
  have hqueue : ∀ e ∈ (a, d) :: queue, d ≤ e.2 := by
    intro e he
    rcases List.mem_cons.mp he with rfl | he
    · exact Nat.le_refl d
    · exact horder.1 e he
  have hspan : ∀ e ∈ (a, d) :: queue, e.2 ≤ d + 1 := h.span (a, d) rfl
  refine ⟨?_, nodup_append_fresh h.nodup _, List.mem_append_left _ h.start, ?_, ?_, ?_, ?_, ?_⟩
  · rw [hsplit, List.map_append, ← h.met, List.map_map]
    exact congrArg (visited ++ ·) (List.map_id _).symm
  · intro e he
    rw [hsplit] at he
    rcases List.mem_append.mp he with he | he
    · exact h.depths e he
    · obtain ⟨hnext, hunmet, hdepth⟩ := hnew he
      rw [hdepth]
      refine ⟨hself.1.step hnext, fun j hj => ?_⟩
      obtain ⟨i, hi, hdist⟩ := exists_atDistance hj
      by_contra hlt
      exact hunmet (h.near hd.le hqueue i e.1 (by omega) hdist)
  · intro e he
    rw [hsplit] at he
    rcases List.mem_append.mp he with he | he
    · exact h.bounded e he
    · rw [(hnew he).2.2]
      exact hd
  · rw [hsplit]
    refine List.pairwise_append.mpr ⟨h.ordered, ?_, fun e he e' he' => ?_⟩
    · refine List.pairwise_map.mpr (List.pairwise_of_forall fun _ _ => Nat.le_refl _)
    · rw [(hnew he').2.2]
      rcases List.mem_append.mp he with hdone | hq
      · have := (List.pairwise_append.mp h.ordered).2.2 e hdone (a, d) List.mem_cons_self
        exact Nat.le_succ_of_le this
      · exact hspan e hq
  · intro e he e' he'
    have hlo : d ≤ e.2 := by
      rcases List.mem_append.mp (List.mem_of_mem_head? he) with hmem | hmem
      · exact horder.1 e hmem
      · rw [(hnew hmem).2.2]
        exact Nat.le_succ d
    have hhi : e'.2 ≤ d + 1 := by
      rcases List.mem_append.mp he' with hmem | hmem
      · exact hspan e' (List.mem_cons_of_mem _ hmem)
      · rw [(hnew hmem).2.2]
    omega
  · intro e he hlt b hb
    rcases List.mem_append.mp he with he | he
    · exact List.mem_append_left _ (h.closed e he hlt b hb)
    · rw [List.mem_singleton.mp he] at hb
      by_cases hmet : b ∈ visited
      · exact List.mem_append_left _ hmet
      · exact List.mem_append_right _ (mem_fresh.mpr ⟨hb, hmet⟩)

/-- When the queue is empty all that is near enough was taken. -/
theorem Taking.complete (h : Taking next limit s done [] visited) : Lists next s (· ≤ limit) (done.map Prod.fst) := by
  have hmet : visited = done.map Prod.fst := by rw [h.met, List.append_nil]
  have hdepths : ∀ e ∈ done, AtDistance next s e.2 e.1 := fun e he => h.depths e (List.mem_append_left _ he)
  refine ⟨hmet ▸ h.nodup, fun b => ⟨fun hb => ?_, ?_⟩, ?_⟩
  · obtain ⟨e, he, rfl⟩ := List.mem_map.mp hb
    exact ⟨e.2, h.bounded e (List.mem_append_left _ he), hdepths e he⟩
  · rintro ⟨k, hk, hb⟩
    exact hmet ▸ h.near hk (fun e he => absurd he List.not_mem_nil) k b (Nat.le_refl k) hb
  · have hordered := h.ordered
    rw [List.append_nil] at hordered
    refine List.pairwise_map.mpr (hordered.imp_of_mem fun {e e'} he he' hle j k hj hk => ?_)
    rw [hj.unique (hdepths e he), hk.unique (hdepths e' he')]
    exact hle

/-- With a turn for every node the search ends, and what it takes is added to
what was taken. -/
theorem Taking.search {targets : List α} (htargets : ∀ a, ∀ b ∈ next a, b ∈ targets) : ∀ (turns : ℕ)
    {done queue : List (α × ℕ)} {visited : List α}, Taking next limit s done queue visited →
    (∀ b ∈ visited, b ∈ s :: targets) → targets.length + 1 ≤ turns + done.length →
    ∃ taken, search next limit turns queue visited = some taken ∧
      Lists next s (· ≤ limit) ((done ++ taken).map Prod.fst)
  | turns, done, [], visited, h, _, _ => by
    refine ⟨[], by unfold Levels.search; rfl, ?_⟩
    rw [List.append_nil]
    exact h.complete
  | 0, done, (a, d) :: queue, visited, h, hin, hturns => by
    -- there are not that many nodes
    have hlen := (h.nodup.subperm hin).length_le
    rw [h.met, List.length_map, List.length_append, List.length_cons, List.length_cons] at hlen
    omega
  | turns + 1, done, (a, d) :: queue, visited, h, hin, hturns => by
    have hlen : targets.length + 1 ≤ turns + (done ++ [(a, d)]).length := by
      rw [List.length_append, List.length_singleton]
      omega
    have hjoin : ∀ taken : List (α × ℕ), done ++ [(a, d)] ++ taken = done ++ (a, d) :: taken := by simp
    unfold Levels.search
    by_cases hd : limit ≤ d
    · obtain ⟨taken, hsearch, hlists⟩ := (h.skip hd).search htargets turns hin hlen
      rw [if_pos hd, hsearch]
      exact ⟨(a, d) :: taken, rfl, hjoin taken ▸ hlists⟩
    · have hin' : ∀ b ∈ visited ++ fresh visited (next a), b ∈ s :: targets := by
        intro b hb
        rcases List.mem_append.mp hb with hb | hb
        · exact hin b hb
        · exact List.mem_cons_of_mem _ (htargets a b (mem_fresh.mp hb).1)
      obtain ⟨taken, hsearch, hlists⟩ := (h.expand (Nat.lt_of_not_le hd)).search htargets turns hin' hlen
      rw [if_neg hd]
      dsimp only
      rw [hsearch]
      exact ⟨(a, d) :: taken, rfl, hjoin taken ▸ hlists⟩

/-- **A search takes exactly the nodes within its bound**, nearer ones first. -/
theorem search_exact {targets : List α} (htargets : ∀ a, ∀ b ∈ next a, b ∈ targets) (limit : ℕ) (s : α) :
    ∃ taken, search next limit (targets.length + 1) [(s, 0)] [s] = some taken ∧
      Lists next s (· ≤ limit) (taken.map Prod.fst) := by
  have hin : ∀ b ∈ [s], b ∈ s :: targets := fun b hb => List.mem_singleton.mp hb ▸ List.mem_cons_self
  exact (taking_start s).search htargets _ hin (Nat.le_refl _)

/-- Without the start it lists what is farther than nothing. -/
theorem Lists.tail {l : List α} (h : Lists next s (· ≤ limit) (s :: l)) :
    Lists next s (fun k => 1 ≤ k ∧ k ≤ limit) l := by
  obtain ⟨hs, hnodup⟩ := List.nodup_cons.mp h.nodup
  refine ⟨hnodup, fun a => ⟨fun ha => ?_, ?_⟩, (List.pairwise_cons.mp h.ordered).2⟩
  · obtain ⟨k, hk, hdist⟩ := (h.mem a).mp (List.mem_cons_of_mem _ ha)
    refine ⟨k, ⟨Nat.one_le_iff_ne_zero.mpr ?_, hk⟩, hdist⟩
    rintro rfl
    cases hdist.1
    exact hs ha
  · rintro ⟨k, hk, hdist⟩
    rcases List.mem_cons.mp ((h.mem a).mpr ⟨k, hk.2, hdist⟩) with rfl | ha
    · have := atDistance_self.unique hdist
      omega
    · exact ha

end Levels
end Amind
