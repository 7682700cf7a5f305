/-
# Runs of the skip list

Any calls, with any coins, from an empty skip list: all succeed, and what can be seen of
it in the end is what a map has that keeps for each key the last value that was put and
whether the key was removed since. A key that was never put is not in it, and removing it
leaves nothing.

`refines_run` is said of any run, and so of each moment of one.

Key definitions: `Op`, `history`, `Refines`.
-/
import Mathlib.Data.List.Dedup
import Amind.Lsm.SkipList

namespace Amind
namespace Lsm
namespace LinkedSkipList

/-- A call, with the coins it may toss. -/
inductive Op (K V : Type)
  | put (k : K) (v : V) (coins : ℕ → Bool)
  | remove (k : K)
  | get (k : K)
  | contains (k : K)
  | lowerBound (k : K)

section Runs

variable {K V : Type} [LinearOrder K]

def step (s : LinkedSkipList K V) : Op K V → Option (LinkedSkipList K V)
  | .put k v coins => s.put k v coins
  | .remove k => (s.remove k).map (·.1)
  | .get k => (s.get k).map fun _ => s
  | .contains k => (s.contains k).map fun _ => s
  | .lowerBound k => (s.lowerBound k).map fun _ => s

def run (os : List (Op K V)) : Option (LinkedSkipList K V) := os.foldlM step {}

/-! ### A map with tombstones -/

/-- The value of each key, and whether it was removed. -/
def noteCall (m : K → Option (V × Bool)) : Op K V → K → Option (V × Bool)
  | .put k v _ => Function.update m k (some (v, false))
  | .remove k => Function.update m k ((m k).map fun e => (e.1, true))
  | _ => m

def history (os : List (Op K V)) : K → Option (V × Bool) := os.foldl noteCall fun _ => none

omit [LinearOrder K] in
/-- The keys that are put, in the order of the calls. -/
def keysPut (os : List (Op K V)) : List K :=
  os.filterMap fun o =>
    match o with
    | .put k _ _ => some k
    | _ => none

theorem history_append (os : List (Op K V)) (o : Op K V) : history (os ++ [o]) = noteCall (history os) o := by
  rw [history, List.foldl_append]
  rfl

/-- A key has a value if it was ever put. -/
theorem isSome_history (os : List (Op K V)) (k : K) : (history os k).isSome = true ↔ k ∈ keysPut os := by
  induction os using List.reverseRecOn with
  | nil => simp [history, keysPut]
  | append_singleton os o ih =>
    rw [history_append, keysPut, List.filterMap_append, List.mem_append, ← keysPut, ← ih]
    cases o with
    | put k' v coins =>
      by_cases hk : k = k'
      · simp [noteCall, hk]
      · simp [noteCall, hk]
    | remove k' =>
      by_cases hk : k = k'
      · simp [noteCall, hk]
      · simp [noteCall, hk]
    | get k' => simp [noteCall]
    | contains k' => simp [noteCall]
    | lowerBound k' => simp [noteCall]

/-! ### The sorted list over a run -/

/-- The same call, on the sorted list. -/
def stepSorted (t : SkipList K V) : Op K V → SkipList K V
  | .put k v _ => t.put k v
  | .remove k => t.remove k
  | _ => t

def runSorted (os : List (Op K V)) : SkipList K V := os.foldl stepSorted .empty

theorem runSorted_append (os : List (Op K V)) (o : Op K V) : runSorted (os ++ [o]) = stepSorted (runSorted os) o := by
  rw [runSorted, List.foldl_append]
  rfl

/-- The sorted list has for each key what was noted of it. -/
theorem node_runSorted (os : List (Op K V)) (k : K) :
    (runSorted os).node k = (history os k).map fun e => ⟨k, e.1, e.2⟩ := by
  induction os using List.reverseRecOn with
  | nil => rfl
  | append_singleton os o ih =>
    rw [runSorted_append, history_append]
    cases o with
    | put k' v coins =>
      rw [stepSorted, SkipList.node_put, noteCall, Function.update_apply, ih]
      by_cases hk : k' = k
      · rw [if_pos hk, if_pos hk.symm, hk]
        rfl
      · rw [if_neg hk, if_neg (Ne.symm hk)]
    | remove k' =>
      rw [stepSorted, SkipList.node_remove, noteCall, Function.update_apply, ih, Option.map_map]
      by_cases hk : k' = k
      · rw [if_pos hk.symm, hk, Option.map_map]
        simp [Function.comp_def]
      · rw [if_neg (Ne.symm hk)]
        simp [Function.comp_def, hk]
    | get k' => exact ih
    | contains k' => exact ih
    | lowerBound k' => exact ih

/-- A node of the list is that of its key. -/
theorem mem_nodes_iff {t : SkipList K V} {n : Node K V} : n ∈ t.nodes ↔ t.node n.key = some n := by
  constructor
  · intro hn
    cases hf : t.node n.key with
    | none =>
      have hnot := List.find?_eq_none.mp hf n hn
      simp at hnot
    | some m =>
      have hkey : m.key = n.key := by simpa using List.find?_some hf
      have hkeys : (t.nodes.map fun n => n.key).Nodup := List.pairwise_map.mpr (t.sorted.imp fun hlt => hlt.ne)
      rw [List.inj_on_of_nodup_map hkeys (SkipList.node_mem hf) hn hkey]
  · exact SkipList.node_mem

theorem mem_runSorted {os : List (Op K V)} {n : Node K V} :
    n ∈ (runSorted os).nodes ↔ history os n.key = some (n.value, n.isTombstone) := by
  rw [mem_nodes_iff, node_runSorted, Option.map_eq_some_iff]
  constructor
  · rintro ⟨e, he, hn⟩
    have hvalue : e.1 = n.value := congrArg Node.value hn
    have hflag : e.2 = n.isTombstone := congrArg Node.isTombstone hn
    rw [he, ← hvalue, ← hflag]
  · exact fun he => ⟨_, he, rfl⟩

theorem mem_keys_runSorted {os : List (Op K V)} {k : K} :
    k ∈ (runSorted os).nodes.map (fun n => n.key) ↔ k ∈ keysPut os := by
  rw [← isSome_history, List.mem_map]
  constructor
  · rintro ⟨n, hn, rfl⟩
    exact Option.isSome_of_eq_some (mem_runSorted.mp hn)
  · intro h
    obtain ⟨e, he⟩ := Option.isSome_iff_exists.mp h
    exact ⟨⟨k, e.1, e.2⟩, mem_runSorted.mpr he, rfl⟩

/-! ### The skip list over a run -/

theorem Represents.step {s : LinkedSkipList K V} {t : SkipList K V} (h : Represents s t) (o : Op K V) :
    ∃ s', s.step o = some s' ∧ Represents s' (stepSorted t o) := by
  cases o with
  | put k v coins => exact h.put k v coins
  | remove k =>
    obtain ⟨s', hs', h'⟩ := h.remove k
    exact ⟨s', by rw [LinkedSkipList.step, hs']; rfl, h'⟩
  | get k => exact ⟨s, by rw [LinkedSkipList.step, h.get k]; rfl, h⟩
  | contains k => exact ⟨s, by rw [LinkedSkipList.step, h.contains k]; rfl, h⟩
  | lowerBound k =>
    obtain ⟨p, hp, -, -⟩ := h.lowerBound k
    exact ⟨s, by rw [LinkedSkipList.step, hp]; rfl, h⟩

/-- A run succeeds, and represents the sorted list after the same calls. -/
theorem represents_run (os : List (Op K V)) : ∃ s, run os = some s ∧ Represents s (runSorted os) := by
  induction os using List.reverseRecOn with
  | nil => exact ⟨{}, rfl, represents_empty⟩
  | append_singleton os o ih =>
    obtain ⟨s, hs, h⟩ := ih
    obtain ⟨s', hs', h'⟩ := h.step o
    refine ⟨s', ?_, runSorted_append os o ▸ h'⟩
    rw [run, List.foldlM_append, ← run, hs]
    simp [hs']

/-- What can be seen of a skip list after these calls. -/
structure Refines (os : List (Op K V)) (s : LinkedSkipList K V) : Prop where
  /-- Each level ascends, and links nodes of the level below; the bottom level has the
  keys ever put. -/
  levels : ∃ level : ℕ → List (Node K V), (∀ i ≤ MAX_LEVEL, s.levelNodes i = some (level i)) ∧
    (∀ i, (level i).Pairwise fun a b => a.key < b.key) ∧ (∀ i, (level (i + 1)).Sublist (level i)) ∧
    ∀ k, k ∈ (level 0).map (fun n => n.key) ↔ k ∈ keysPut os
  forEach : ∃ ns, s.forEach = some ns ∧ ns.Pairwise (fun a b => a.key < b.key) ∧
    ∀ n, n ∈ ns ↔ history os n.key = some (n.value, n.isTombstone)
  allKeys : ∃ ks, s.allKeys = some ks ∧ ks.Pairwise (· < ·) ∧ ∀ k, k ∈ ks ↔ k ∈ keysPut os
  get : ∀ k, s.get k = some ((history os k).bind fun e => if e.2 then none else some e.1)
  contains : ∀ k, s.contains k = some ((history os k).any fun e => !e.2)
  remove : ∀ k, (s.remove k).map (·.2) = some (history os k).isSome
  /-- The iterator is at the first node that is not below, and goes through all of them. -/
  lowerBound : ∀ k, ∃ p ns, s.lowerBound k = some p ∧ s.iterate p = some ns ∧ p.bind s.nodeAt = ns.head? ∧
    ns.Pairwise (fun a b => a.key < b.key) ∧
    ∀ n, n ∈ ns ↔ k ≤ n.key ∧ history os n.key = some (n.value, n.isTombstone)
  size : s.size = (keysPut os).dedup.length

/-- The nodes that are not below a key, in the sorted list. -/
theorem mem_seek {t : SkipList K V} {k : K} {n : Node K V} : n ∈ SkipList.seek k t.nodes ↔ k ≤ n.key ∧ n ∈ t.nodes := by
  have hseek : ∀ {ns : List (Node K V)}, ns.Pairwise (fun a b => a.key < b.key) →
      (n ∈ SkipList.seek k ns ↔ k ≤ n.key ∧ n ∈ ns) := by
    intro ns
    induction ns with
    | nil => simp [SkipList.seek]
    | cons m ns ih =>
      intro h
      obtain ⟨hm, hns⟩ := List.pairwise_cons.mp h
      have ih := ih hns
      by_cases hlt : m.key < k
      · rw [SkipList.seek, List.dropWhile_cons_of_pos (by simpa using hlt), ← SkipList.seek, ih, List.mem_cons]
        constructor
        · exact fun hn => ⟨hn.1, .inr hn.2⟩
        · rintro ⟨hk, rfl | hn⟩
          · exact absurd hlt (not_lt.mpr hk)
          · exact ⟨hk, hn⟩
      · have hk : k ≤ m.key := not_lt.mp hlt
        rw [SkipList.seek, List.dropWhile_cons_of_neg (by simpa using hk)]
        refine ⟨fun hn => ⟨?_, hn⟩, fun hn => hn.2⟩
        rcases List.mem_cons.mp hn with rfl | hn
        · exact hk
        · exact hk.trans (hm n hn).le
  exact hseek t.sorted

theorem Represents.refines {os : List (Op K V)} {s : LinkedSkipList K V} (h : Represents s (runSorted os)) :
    Refines os s where
  levels := by
    obtain ⟨level, hlevel, hzero, hsorted, hsub⟩ := h.levels
    exact ⟨level, hlevel, hsorted, hsub, fun k => by rw [hzero]; exact mem_keys_runSorted⟩
  forEach := ⟨_, h.forEach, (runSorted os).sorted, fun _ => mem_runSorted⟩
  allKeys := by
    refine ⟨(runSorted os).nodes.map fun n => n.key, ?_, List.pairwise_map.mpr (runSorted os).sorted,
      fun _ => mem_keys_runSorted⟩
    rw [LinkedSkipList.allKeys, h.forEach]
    rfl
  get k := by
    rw [h.get, SkipList.get_eq, node_runSorted]
    cases history os k <;> rfl
  contains k := by
    rw [h.contains, SkipList.get_eq, node_runSorted]
    cases history os k with
    | none => rfl
    | some e =>
      obtain ⟨v, removed⟩ := e
      cases removed <;> rfl
  remove k := by
    obtain ⟨s', hs', -⟩ := h.remove k
    rw [hs', node_runSorted, Option.map_some, Option.isSome_map]
  lowerBound k := by
    obtain ⟨p, hp, hns, hfirst⟩ := h.lowerBound k
    exact ⟨p, _, hp, hns, hfirst, (runSorted os).sorted.sublist (List.dropWhile_sublist _),
      fun n => by rw [mem_seek, mem_runSorted]⟩
  size := by
    have hkeys : ((runSorted os).nodes.map fun n => n.key).Nodup :=
      List.pairwise_map.mpr ((runSorted os).sorted.imp fun hlt => hlt.ne)
    have hperm : ((runSorted os).nodes.map fun n => n.key).Perm (keysPut os).dedup :=
      (List.perm_ext_iff_of_nodup hkeys (List.nodup_dedup _)).mpr fun k => by rw [mem_keys_runSorted, List.mem_dedup]
    rw [h.size, ← hperm.length_eq, List.length_map]

/-- **A skip list is a sorted map with tombstones.** After any calls, with any coins. -/
theorem refines_run (os : List (Op K V)) : ∃ s, run os = some s ∧ Refines os s := by
  obtain ⟨s, hs, h⟩ := represents_run os
  exact ⟨s, hs, h.refines⟩

/-- Three keys on several levels, one of them removed and put again. -/
example : (run [.put 5 "a" (· < 2), .put 9 "b" fun _ => false, .remove 5, .put 7 "c" (· < 3), .remove 9,
    .put 5 "d" fun _ => true]).bind (fun s => s.forEach.map fun ns => ns.map fun n => (n.key, n.value, n.isTombstone)) =
    some [((5 : ℕ), "d", false), (7, "c", false), (9, "b", true)] := by
  decide

end Runs

end LinkedSkipList
end Lsm
end Amind
