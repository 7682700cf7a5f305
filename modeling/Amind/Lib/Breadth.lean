/-
# Breadth-first orders

A breadth-first search takes the first node of its queue, appends to the queue
those of the nodes next to it that were not met before (`fresh`), and goes on.
`Enumerates next E done queue B` says that a search that expands exactly the
nodes of `E`, and has taken `done` and has `queue` to take, takes the nodes in
the order `B`. The order starts with what is taken and what is queued
(`Enumerates.starts`) and has no node twice (`Enumerates.nodup`).
-/
import Mathlib.Data.List.Nodup
import Mathlib.Data.List.Infix

namespace Amind
namespace Breadth

variable {α : Type} [DecidableEq α]

/-- The nodes that were not met, each once, in order. -/
def fresh (seen : List α) : List α → List α
  | [] => []
  | n :: ns => if n ∈ seen then fresh seen ns else n :: fresh (n :: seen) ns

theorem mem_fresh {n : α} : ∀ {seen ns : List α}, n ∈ fresh seen ns ↔ n ∈ ns ∧ n ∉ seen
  | seen, [] => by simp [fresh]
  | seen, m :: ns => by
    unfold fresh
    split
    · rename_i hm
      rw [mem_fresh, List.mem_cons]
      constructor
      · exact fun h => ⟨.inr h.1, h.2⟩
      · rintro ⟨rfl | h, hn⟩
        · exact absurd hm hn
        · exact ⟨h, hn⟩
    · rename_i hm
      rw [List.mem_cons, mem_fresh, List.mem_cons, List.mem_cons, not_or]
      constructor
      · rintro (rfl | ⟨h, -, hn⟩)
        · exact ⟨.inl rfl, hm⟩
        · exact ⟨.inr h, hn⟩
      · rintro ⟨h, hn⟩
        by_cases hnm : n = m
        · exact .inl hnm
        · exact .inr ⟨h.resolve_left hnm, hnm, hn⟩

theorem nodup_fresh : ∀ (seen ns : List α), (fresh seen ns).Nodup
  | _, [] => List.nodup_nil
  | seen, n :: ns => by
    unfold fresh
    split
    · exact nodup_fresh seen ns
    · exact List.nodup_cons.mpr ⟨fun h => (mem_fresh.mp h).2 List.mem_cons_self, nodup_fresh _ ns⟩

/-- Only which nodes were met counts, not their order. -/
theorem fresh_congr : ∀ {seen seen' : List α} (ns : List α), (∀ n, n ∈ seen ↔ n ∈ seen') →
    fresh seen ns = fresh seen' ns
  | _, _, [], _ => rfl
  | seen, seen', n :: ns, h => by
    unfold fresh
    by_cases hn : n ∈ seen
    · rw [if_pos hn, if_pos ((h n).mp hn), fresh_congr ns h]
    · have hcons : ∀ m, m ∈ n :: seen ↔ m ∈ n :: seen' := fun m => by rw [List.mem_cons, List.mem_cons, h m]
      rw [if_neg hn, if_neg (mt (h n).mpr hn), fresh_congr ns hcons]

/-- New nodes behind those that are taken or queued. -/
theorem nodup_append_fresh {seen : List α} (h : seen.Nodup) (ns : List α) : (seen ++ fresh seen ns).Nodup :=
  List.nodup_append.mpr ⟨h, nodup_fresh seen ns, fun _ ha _ hb he => (mem_fresh.mp hb).2 (he ▸ ha)⟩

/-- A search from `queue`, with `done` taken, that expands the nodes of `E`
takes the nodes in the order `B`. -/
inductive Enumerates (next : α → List α) (E : α → Prop) : List α → List α → List α → Prop
  | nil {done : List α} : Enumerates next E done [] done
  | expand {done rest B : List α} {n : α} (h : E n)
      (hrest : Enumerates next E (done ++ [n]) (rest ++ fresh (done ++ n :: rest) (next n)) B) :
      Enumerates next E done (n :: rest) B
  | skip {done rest B : List α} {n : α} (h : ¬ E n) (hrest : Enumerates next E (done ++ [n]) rest B) :
      Enumerates next E done (n :: rest) B

namespace Enumerates

variable {next : α → List α} {E : α → Prop} {done queue B : List α}

/-- The order starts with what is taken and what is queued. -/
theorem starts (h : Enumerates next E done queue B) : done ++ queue <+: B := by
  induction h with
  | nil => rw [List.append_nil]
  | @expand done rest B n _ _ ih =>
    refine List.IsPrefix.trans ⟨fresh (done ++ n :: rest) (next n), ?_⟩ ih
    simp only [List.append_assoc, List.cons_append, List.nil_append]
  | @skip done rest B n _ _ ih => rwa [List.append_assoc, List.singleton_append] at ih

theorem nodup (h : Enumerates next E done queue B) (hd : (done ++ queue).Nodup) : B.Nodup := by
  induction h with
  | nil => rwa [List.append_nil] at hd
  | @expand done rest B n _ _ ih =>
    refine ih ?_
    have hnew := nodup_append_fresh hd (next n)
    simpa only [List.append_assoc, List.cons_append, List.nil_append] using hnew
  | @skip done rest B n _ _ ih => exact ih (by rwa [List.append_assoc, List.singleton_append])

end Enumerates

/-- `m` comes before `n` in the order. -/
def Before (B : List α) (m n : α) : Prop := ∃ l₁ l₂, B = l₁ ++ n :: l₂ ∧ m ∈ l₁

omit [DecidableEq α] in
theorem before_of_starts {B done rest : List α} {m n : α} (hs : done ++ n :: rest <+: B) (hm : m ∈ done) :
    Before B m n := by
  obtain ⟨tail, ht⟩ := hs
  exact ⟨done, rest ++ tail, by rw [← ht, List.append_assoc, List.cons_append], hm⟩

omit [DecidableEq α] in
/-- In an order without repetition, what comes before a node is what was taken
before it. -/
theorem Before.mem_of_starts {B done rest : List α} {m n : α} (h : Before B m n) (hn : B.Nodup)
    (hs : done ++ n :: rest <+: B) : m ∈ done := by
  obtain ⟨l₁, l₂, rfl, hm⟩ := h
  obtain ⟨tail, ht⟩ := hs
  rw [List.append_assoc, List.cons_append] at ht
  obtain ⟨hn₁, -, hdisj⟩ := List.nodup_append.mp hn
  have hnot₁ : n ∉ l₁ := fun h => hdisj n h n List.mem_cons_self rfl
  have hnot : n ∉ done := by
    rw [← ht] at hn
    exact fun h => (List.nodup_append.mp hn).2.2 n h n List.mem_cons_self rfl
  rcases List.append_eq_append_iff.mp ht with ⟨c, rfl, hc⟩ | ⟨c, rfl, hc⟩
  · cases c with
    | nil => rwa [List.append_nil] at hm
    | cons a c =>
      rw [List.cons_append] at hc
      exact absurd (List.mem_append_right done ((List.cons.inj hc).1 ▸ List.mem_cons_self)) hnot₁
  · exact List.mem_append_left _ hm

end Breadth
end Amind
