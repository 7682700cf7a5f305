/-
# What a compaction does to lookups

A compaction of L0 merges its tables, drops every key whose newest entry is a
deletion, and appends the result to L1, behind the tables that are there; when
L1 is full it is merged in turn, in its list's order, and appended to L2. The
result answers a lookup after the older tables of its level, and a dropped
deletion uncovers what it deleted. `CompactSafe` says for which keys this
shows; for all others a compaction leaves the lookup as it was, in every state
with the layout an engine keeps (`Layout.get_compactL0_iff`).
-/
import Amind.Lsm.Layout

namespace Amind
namespace Lsm

/-! ### Probing lists of tables -/

@[simp] theorem probe_nil (k : Key) : probe [] k = none := rfl

theorem probe_cons (t : Table) (ts : List Table) (k : Key) :
    probe (t :: ts) k = (t.table.get k).or (probe ts k) := by
  unfold probe
  rw [List.findSome?_cons]
  cases t.table.get k <;> rfl

theorem probe_append (ts ts' : List Table) (k : Key) : probe (ts ++ ts') k = (probe ts k).or (probe ts' k) := by
  simp [probe, List.findSome?_append]

theorem probe_singleton (t : Table) (k : Key) : probe [t] k = t.table.get k := by
  rw [probe_cons, probe_nil, Option.or_none]

/-- The output of a compaction has the newest version of a key, unless it is
a deletion. -/
theorem get_merged (e : Engine) (level : Level) (k : Key) :
    (e.merged level).table.get k = Engine.live (probe (e.sourceTables level) k) := by
  show (SSTable.mergeTables _).get k = _
  rw [SSTable.get_mergeTables, List.findSome?_map]
  rfl

theorem probe_ne_deletion {ts : List Table} (h : ∀ t ∈ ts, t.table.NoDeletion) (k : Key) :
    probe ts k ≠ some [] := by
  intro hp
  obtain ⟨t, ht, hk⟩ := List.exists_of_findSome?_eq_some hp
  exact h t ht k hk

namespace Layout

variable {e : Engine} {d : Disk}

theorem l1_noDeletion (h : Layout e d) : ∀ t ∈ e.l1Tables, t.table.NoDeletion := by
  intro t ht
  obtain ⟨hf, hr⟩ := Disk.mem_load.mp (h.l1.subset ht)
  obtain ⟨-, t', ht', hn⟩ := h.listed.l1 _ hf
  rw [hr, Option.some.injEq] at ht'
  exact ht' ▸ hn

theorem l2_noDeletion (h : Layout e d) : ∀ t ∈ e.l2Tables, t.table.NoDeletion := by
  intro t ht
  obtain ⟨hf, hr⟩ := Disk.mem_load.mp (h.l2.subset ht)
  obtain ⟨-, t', ht', hn⟩ := h.listed.l2 _ hf
  rw [hr, Option.some.injEq] at ht'
  exact ht' ▸ hn

end Layout

/-! ### Lookups after a compaction -/

namespace Engine

/-- The lookup after L0 was merged into L1. -/
theorem get_afterMerge_l0 (e : Engine) (k : Key) :
    (e.afterMerge .l0).get k =
      live ((e.memHit k).or (((probe e.l1Tables k).or (live (probe e.l0Tables k))).or (probe e.l2Tables k))) := by
  show live ((e.memHit k).or ((probe [] k).or
    ((probe (e.l1Tables ++ [e.merged .l0]) k).or (probe e.l2Tables k)))) = _
  rw [probe_nil, Option.none_or, probe_append, probe_singleton, get_merged]
  rfl

/-- The lookup after L1 was merged too. -/
theorem get_afterMerge_l1 (e : Engine) (k : Key) :
    ((e.afterMerge .l0).afterMerge .l1).get k =
      live ((e.memHit k).or ((probe e.l2Tables k).or
        (live ((probe e.l1Tables k).or (live (probe e.l0Tables k)))))) := by
  show live ((e.memHit k).or ((probe [] k).or ((probe [] k).or
    (probe (e.l2Tables ++ [(e.afterMerge .l0).merged .l1]) k)))) = _
  rw [probe_nil, Option.none_or, Option.none_or, probe_append, probe_singleton, get_merged]
  show live ((e.memHit k).or ((probe e.l2Tables k).or (live (probe (e.l1Tables ++ [e.merged .l0]) k)))) = _
  rw [probe_append, probe_singleton, get_merged]
  rfl

/-- The key's lookup does not notice the compaction: the memtables answer it,
or nothing is merged, or no version of the key that the compaction puts in
front of the newest one differs from it, and no deletion of the key is dropped
while L1 or L2 has the key. -/
def CompactSafe (e : Engine) (k : Key) : Prop :=
  (e.memHit k).isSome = true ∨ e.l0Tables.length < 2 ∨
    match probe e.l0Tables k with
    | none =>
      e.l1Tables.length + 1 < L1_COMPACTION_THRESHOLD ∨ probe e.l1Tables k = none ∨
        probe e.l2Tables k = none ∨ probe e.l1Tables k = probe e.l2Tables k
    | some [] => probe e.l1Tables k = none ∧ probe e.l2Tables k = none
    | some v =>
      if e.l1Tables.length + 1 < L1_COMPACTION_THRESHOLD then
        probe e.l1Tables k = none ∨ probe e.l1Tables k = some v
      else
        (probe e.l2Tables k).or (probe e.l1Tables k) = none ∨
          (probe e.l2Tables k).or (probe e.l1Tables k) = some v

instance (e : Engine) (k : Key) : Decidable (e.CompactSafe k) := by
  unfold CompactSafe
  cases probe e.l0Tables k with
  | none => infer_instance
  | some v =>
    cases v with
    | nil => infer_instance
    | cons b bs => infer_instance

end Engine

namespace Layout

variable {e : Engine} {d : Disk}

/-- What L0 merged into L1 changes, for versions `a₀`, `a₁` and `a₂` of the
key in the three levels. -/
theorem merge_l0_iff {a₀ a₁ a₂ : Option Bytes} (h₁ : a₁ ≠ some []) (h₂ : a₂ ≠ some []) :
    Engine.live ((a₁.or (Engine.live a₀)).or a₂) = Engine.live (a₀.or (a₁.or a₂)) ↔
      match a₀ with
      | none => True
      | some [] => a₁ = none ∧ a₂ = none
      | some v => a₁ = none ∨ a₁ = some v := by
  have e₁ := Engine.live_eq h₁
  have e₂ := Engine.live_eq h₂
  rcases a₀ with _ | _ | ⟨b, bs⟩
  · simp
  · rcases a₁ with _ | v₁
    · rcases a₂ with _ | v₂ <;> simp [e₂]
    · simp [e₁]
  · rcases a₁ with _ | v₁ <;> simp [e₁]

/-- What L0 merged into L1 and L1 into L2 changes. -/
theorem merge_l1_iff {a₀ a₁ a₂ : Option Bytes} (h₁ : a₁ ≠ some []) (h₂ : a₂ ≠ some []) :
    Engine.live (a₂.or (Engine.live (a₁.or (Engine.live a₀)))) = Engine.live (a₀.or (a₁.or a₂)) ↔
      match a₀ with
      | none => a₁ = none ∨ a₂ = none ∨ a₁ = a₂
      | some [] => a₁ = none ∧ a₂ = none
      | some v => a₂.or a₁ = none ∨ a₂.or a₁ = some v := by
  have e₁ := Engine.live_eq h₁
  have e₂ := Engine.live_eq h₂
  rcases a₀ with _ | _ | ⟨b, bs⟩
  · rcases a₁ with _ | v₁
    · simp
    · rcases a₂ with _ | v₂
      · simp [e₁]
      · simp [e₁, e₂, eq_comm]
  · rcases a₂ with _ | v₂
    · rcases a₁ with _ | v₁ <;> simp [e₁]
    · simp [e₂]
  · rcases a₂ with _ | v₂
    · rcases a₁ with _ | v₁
      · simp
      · simp [e₁]
    · simp [e₂]

theorem get_compactL0_iff (h : Layout e d) (k : Key) :
    e.compactL0.1.get k = e.get k ↔ e.CompactSafe k := by
  have h₁ := probe_ne_deletion h.l1_noDeletion k
  have h₂ := probe_ne_deletion h.l2_noDeletion k
  unfold Engine.CompactSafe
  rcases e.compactL0_cases with ⟨hlen, hc⟩ | ⟨hlen, hl1, hc⟩ | ⟨hlen, hl1, hc⟩
  · rw [hc]
    simp [hlen]
  · rw [hc]
    show (e.afterMerge .l0).get k = e.get k ↔ _
    rw [Engine.get_afterMerge_l0, Engine.get, Engine.tableHit]
    cases hm : e.memHit k with
    | some v => simp
    | none =>
      rw [Option.none_or, Option.none_or, merge_l0_iff h₁ h₂]
      simp only [Nat.not_lt.mpr hlen, hl1, Option.isSome_none, Bool.false_eq_true, false_or, true_or, if_true]
  · rw [hc]
    show ((e.afterMerge .l0).afterMerge .l1).get k = e.get k ↔ _
    rw [Engine.get_afterMerge_l1, Engine.get, Engine.tableHit]
    cases hm : e.memHit k with
    | some v => simp
    | none =>
      rw [Option.none_or, Option.none_or, merge_l1_iff h₁ h₂]
      simp only [Nat.not_lt.mpr hlen, Nat.not_lt.mpr hl1, Option.isSome_none, Bool.false_eq_true, false_or, if_false]

end Layout

end Lsm
end Amind
