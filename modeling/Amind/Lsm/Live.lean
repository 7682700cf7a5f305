/-
# Visiting the live records

`forEachLive` goes over the layers twice. First it notes for each key whether
its newest version is a deletion, from the oldest layer to the newest. Then it
fetches the value of each key that is not deleted, probing the layers as a
lookup does.

A lookup takes a flagged node of the memtable for an absent one and goes on to
the tables, but the first pass takes it for a deletion. So the two agree
exactly if the tables have no value of a key that is flagged
(`forEachLive_iff`).
-/
import Mathlib.Data.List.AList
import Amind.Core.Crc32
import Amind.Lsm.Lookup
import Amind.Lsm.Reopen

namespace Amind
namespace Lsm

open Run (run Along)
open Wal (Env)

/-! ### The two passes -/

/-- For each key whether its newest version is a deletion. -/
abbrev KeyState := AList fun _ : Key => Bool

/-- The versions of a table. -/
def markTable (s : KeyState) (t : Table) : KeyState := t.table.entries.foldl (fun s e => s.insert e.1 e.2.isEmpty) s

/-- The versions of a memtable. -/
def markMemTable (s : KeyState) (m : MemTable) : KeyState := m.nodes.foldl (fun s n => s.insert n.key n.isTombstone) s

namespace Engine

/-- The first pass. Later layers overwrite what earlier ones say. -/
def keyState (e : Engine) : KeyState :=
  let s := e.l2Tables.reverse.foldl markTable ∅
  let s := e.l1Tables.reverse.foldl markTable s
  let s := e.l0Tables.reverse.foldl markTable s
  let s := e.immutableMemtable.toList.foldl markMemTable s
  markMemTable s e.activeMemtable

/-- What the second pass gives the visitor for a key. -/
def fetch (e : Engine) (k : Key) : Option Bytes :=
  match live (e.activeMemtable.getRaw k) with
  | some v => some v
  | none =>
    match live (e.immutableMemtable.bind fun m => m.getRaw k) with
    | some v => some v
    | none =>
      match probe e.l0Tables k with
      | some v => live (some v)
      | none =>
        match probe e.l1Tables k with
        | some v => live (some v)
        | none => live (probe e.l2Tables k)

/-- The calls of the visitor, in the order of the map. -/
def forEachLive (e : Engine) : List (Key × Bytes) :=
  e.keyState.entries.filterMap fun s => if s.2 then none else (e.fetch s.1).map fun v => (s.1, v)

/-- The calls for a key. -/
def visits (e : Engine) (k : Key) : List (Key × Bytes) := e.forEachLive.filter fun x => x.1 = k

end Engine

/-! ### What the first pass notes -/

section Marks

variable {k : Key}

/-- The last pair of a key counts. -/
theorem lookup_foldl_insert {α : Type} (f : α → Key × Bool) : ∀ (l : List α) (s : KeyState),
    (l.map fun x => (f x).1).Nodup →
    (l.foldl (fun s x => s.insert (f x).1 (f x).2) s).lookup k =
      ((l.find? fun x => (f x).1 = k).map fun x => (f x).2).or (s.lookup k)
  | [], _, _ => rfl
  | x :: l, s, hnd => by
    obtain ⟨hx, hl⟩ := List.nodup_cons.mp hnd
    rw [List.foldl_cons, lookup_foldl_insert f l _ hl, List.find?_cons]
    by_cases hk : (f x).1 = k
    · have hnone : l.find? (fun x => (f x).1 = k) = none := by
        refine List.find?_eq_none.mpr fun y hy => ?_
        rw [decide_eq_true_iff]
        exact fun he => hx (List.mem_map.mpr ⟨y, hy, he.trans hk.symm⟩)
      rw [hnone, decide_eq_true hk]
      subst hk
      rw [AList.lookup_insert]
      rfl
    · rw [decide_eq_false hk, AList.lookup_insert_ne (Ne.symm hk)]

theorem lookup_markTable (s : KeyState) (t : Table) :
    (markTable s t).lookup k = ((t.table.get k).map fun v => v.isEmpty).or (s.lookup k) := by
  have hnd : (t.table.entries.map fun e => e.1).Nodup :=
    List.pairwise_map.mpr (t.table.sorted.imp fun h => h.ne)
  have hfind : ∀ l : List (Key × Bytes), ((l.find? fun e => e.1 = k).map fun e => e.2.isEmpty) =
      (l.lookup k).map fun v => v.isEmpty := by
    intro l
    induction l with
    | nil => rfl
    | cons e l ih =>
      rw [List.find?_cons]
      by_cases hk : e.1 = k
      · subst hk
        rw [decide_eq_true rfl, Keyed.lookup_cons_eq]
        rfl
      · rw [decide_eq_false hk, Keyed.lookup_cons_ne (Ne.symm hk), ← ih]
  rw [markTable, lookup_foldl_insert (fun e : Key × Bytes => (e.1, e.2.isEmpty)) _ _ hnd, hfind]
  rfl

theorem lookup_markMemTable (s : KeyState) (m : MemTable) :
    (markMemTable s m).lookup k = ((m.node k).map fun n => n.isTombstone).or (s.lookup k) := by
  have hnd : (m.nodes.map fun n => n.key).Nodup := List.pairwise_map.mpr (m.sorted.imp fun h => h.ne)
  rw [markMemTable, lookup_foldl_insert (fun n : Node Key Bytes => (n.key, n.isTombstone)) _ _ hnd]
  rfl

/-- The tables of a level, the first one last. -/
theorem lookup_markTables : ∀ (ts : List Table) (s : KeyState),
    (ts.reverse.foldl markTable s).lookup k = ((probe ts k).map fun v => v.isEmpty).or (s.lookup k)
  | [], _ => rfl
  | t :: ts, s => by
    rw [List.reverse_cons, List.foldl_append, List.foldl_cons, List.foldl_nil, lookup_markTable, lookup_markTables ts,
      probe_cons]
    cases t.table.get k <;> rfl

end Marks

namespace Engine

variable {e : Engine} {k : Key}

/-- The first pass notes the newest version of each key. -/
theorem lookup_keyState (hi : e.immutableMemtable = none) :
    e.keyState.lookup k =
      ((e.activeMemtable.node k).map fun n => n.isTombstone).or ((e.tableHit k).map fun v => v.isEmpty) := by
  unfold keyState
  rw [hi]
  dsimp only
  rw [lookup_markMemTable, Option.toList_none, List.foldl_nil, lookup_markTables, lookup_markTables, lookup_markTables,
    AList.lookup_empty, Option.or_none, tableHit]
  cases probe e.l0Tables k <;> cases probe e.l1Tables k <;> rfl

/-- The second pass probes the tables as a lookup does. -/
theorem fetch_eq (hi : e.immutableMemtable = none) :
    e.fetch k = (live (e.activeMemtable.getRaw k)).or (live (e.tableHit k)) := by
  unfold fetch
  rw [hi, tableHit]
  cases live (e.activeMemtable.getRaw k) with
  | some v => rfl
  | none =>
    simp only [Option.bind_none, live_none, Option.none_or]
    cases probe e.l0Tables k with
    | some v => rfl
    | none => cases probe e.l1Tables k <;> rfl

/-- A key is visited at most once, with what is fetched for it. -/
theorem visits_eq : e.visits k =
    ((e.keyState.lookup k).bind fun deleted => if deleted then none else (e.fetch k).map fun v => (k, v)).toList := by
  have hall : ∀ l : List (Sigma fun _ : Key => Bool), l.NodupKeys →
      ((l.filterMap fun s => if s.2 then none else (e.fetch s.1).map fun v => (s.1, v)).filter fun x => x.1 = k) =
        ((l.dlookup k).bind fun deleted => if deleted then none else (e.fetch k).map fun v => (k, v)).toList := by
    intro l hnd
    induction l with
    | nil => rfl
    | cons s l ih =>
      obtain ⟨k', b⟩ := s
      obtain ⟨hk', hl⟩ := List.nodupKeys_cons.mp hnd
      by_cases hk : k' = k
      · subst hk
        have hnone : l.dlookup k' = none := List.dlookup_eq_none.mpr hk'
        have hrest := ih hl
        rw [hnone, Option.bind_none, Option.toList_none] at hrest
        rw [List.dlookup_cons_eq, List.filterMap_cons]
        cases b with
        | true => exact hrest
        | false =>
          cases e.fetch k' with
          | none => exact hrest
          | some v =>
            show List.filter _ ((k', v) :: List.filterMap _ l) = [(k', v)]
            rw [List.filter_cons, if_pos (decide_eq_true rfl), hrest]
      · rw [List.dlookup_cons_ne _ _ (Ne.symm hk), ← ih hl, List.filterMap_cons]
        cases b with
        | true => rfl
        | false => cases e.fetch k' <;> simp [hk]
  exact hall e.keyState.entries e.keyState.nodupKeys

/-- The tables have no value of a key that is flagged in the memtable. -/
def FlaggedHidden (e : Engine) : Prop :=
  ∀ k n, e.activeMemtable.node k = some n → n.isTombstone = true → live (e.tableHit k) = none

/-- The visits agree with the lookups. -/
def Agrees (e : Engine) : Prop := ∀ k, e.visits k = ((e.get k).map fun v => (k, v)).toList

/-- The memtable holds data where it is not flagged. -/
def HoldsData (e : Engine) : Prop := ∀ k n, e.activeMemtable.node k = some n → n.isTombstone = false → n.value ≠ []

theorem agrees_iff_flaggedHidden (hi : e.immutableMemtable = none) (hd : e.HoldsData) : e.Agrees ↔ e.FlaggedHidden := by
  refine ⟨fun h k n hn ht => ?_, fun h k => ?_⟩
  · have hk := h k
    rw [visits_eq, lookup_keyState hi, hn, get_of_node hi, hn] at hk
    simp only [Option.map_some, ht, Option.some_or, Option.bind_some, if_true, Option.toList_none] at hk
    cases hl : live (e.tableHit k) with
    | none => rfl
    | some v =>
      rw [hl] at hk
      cases hk
  · rw [visits_eq, lookup_keyState hi, fetch_eq hi, get_of_node hi, MemTable.getRaw_eq]
    cases hn : e.activeMemtable.node k with
    | none =>
      -- the tables have none, a deletion or a value, and both see which
      cases e.tableHit k with
      | none => rfl
      | some v => cases v <;> rfl
    | some n =>
      cases ht : n.isTombstone with
      | true => simp [ht, h k n hn ht]
      | false => simp [ht, live_some (hd k n hn ht)]

/-! ### Runs -/

theorem HoldsData.of_empty (h : e.activeMemtable.isEmpty = true) : e.HoldsData := by
  intro k n hn
  rw [MemTable.node_of_isEmpty h] at hn
  cases hn

theorem HoldsData.sameWrites {e' : Engine} (h : e.HoldsData) (hs : e.SameWrites e') : e'.HoldsData := by
  intro k n hn
  rw [hs.active] at hn
  exact h k n hn

theorem holdsData_flushed (e : Engine) : e.flushed.maybeCompact.1.HoldsData :=
  (HoldsData.of_empty (e := e.flushed) rfl).sameWrites (sameWrites_maybeCompact _)

theorem HoldsData.flushLocked (h : e.HoldsData) (hi : e.immutableMemtable = none) : e.flushLocked.1.HoldsData := by
  cases hm : e.activeMemtable.isEmpty with
  | true =>
    rw [flushLocked_empty hm]
    exact h
  | false =>
    rw [flushLocked_eq hi hm]
    exact .of_empty rfl

/-- An operation that puts no empty value. -/
theorem HoldsData.exec (h : e.HoldsData) (hi : e.immutableMemtable = none) {op : Op}
    (hop : ∀ k full clk, op ≠ .putRaw k [] full clk) : (e.exec op).1.HoldsData := by
  cases op with
  | putRaw k data full clk =>
    have hput : HoldsData
        { e with sequenceNumber := e.sequenceNumber + 1, activeMemtable := e.activeMemtable.putRaw k data } := by
      intro k' n hn ht
      have hnode : (e.activeMemtable.putRaw k data).node k' =
          if k = k' then some ⟨k, data, false⟩ else e.activeMemtable.node k' :=
            by rw [MemTable.putRaw, SkipList.node_put]
      rw [show (Engine.activeMemtable _) = e.activeMemtable.putRaw k data from rfl, hnode] at hn
      split at hn
      · rw [← Option.some.inj hn]
        exact fun hnil => hop k full clk (by rw [show data = [] from hnil])
      · exact h k' n hn ht
    show (e.putRaw k data full clk).1.HoldsData
    cases full with
    | false => exact hput
    | true =>
      exact holdsData_flushed
        { e with sequenceNumber := e.sequenceNumber + 1, activeMemtable := e.activeMemtable.putRaw k data }
  | remove k clk =>
    intro k' n hn ht
    have hnode : (e.exec (.remove k clk)).1.activeMemtable.node k' =
        (e.activeMemtable.node k').map fun n => if k = k' then { n with isTombstone := true } else n :=
      SkipList.node_remove e.activeMemtable k k'
    rw [hnode] at hn
    obtain ⟨n₀, hn₀, rfl⟩ := Option.map_eq_some_iff.mp hn
    by_cases hk : k = k'
    · rw [if_pos hk] at ht
      cases ht
    · rw [if_neg hk] at ht ⊢
      exact h k' n₀ hn₀ ht
  | flush => exact h.flushLocked hi
  | lazyFlush =>
    show e.lazyFlush.1.HoldsData
    cases hm : e.activeMemtable.isEmpty with
    | true =>
      rw [lazyFlush_empty hm]
      exact h
    | false =>
      rw [lazyFlush_eq e hm]
      exact (h.flushLocked hi).sameWrites (sameWrites_maybeCompact _)
  | maybeCompact => exact h.sameWrites (sameWrites_maybeCompact e)
  | forceCompact => exact h.sameWrites (sameWrites_forceCompact e)

/-- What the log gave back is flushed before the engine is used. -/
theorem holdsData_construct {E : Env} {d : Disk} (hs : Stored d) : (construct E d).1.HoldsData := by
  have hi : ((loadTables d).1.replayWal E d).immutableMemtable = none := (hs.loadTables (E := E)).1.immutable
  show ((loadTables d).1.replayWal E d).recoverFlush.1.HoldsData
  cases hm : ((loadTables d).1.replayWal E d).activeMemtable.isEmpty with
  | true =>
    rw [recoverFlush_empty hm]
    exact .of_empty hm
  | false =>
    rw [recoverFlush_eq hi hm]
    exact holdsData_flushed _

end Engine

/-- The event puts no empty value. -/
def Event.PutsData (ev : Event) : Prop := ∀ k full clk, ev ≠ .exec (.putRaw k [] full clk)

def Process.HoldsData : Process → Prop
  | .running e _ => e.HoldsData
  | .stopped _ => True

theorem Process.HoldsData.step {E : Env} {p : Process} (h : p.HoldsData) (hl : p.Laid) {ev : Event}
    (hev : ev.PutsData) :
    (p.step E ev).HoldsData := by
  cases p with
  | running e d =>
    cases ev with
    | exec op => exact Engine.HoldsData.exec h hl.immutable fun k full clk he => hev k full clk (by rw [he])
    | close => trivial
    | crash op n => trivial
    | construct => exact h
    | crashConstruct n => exact h
  | stopped d =>
    cases ev with
    | construct => exact Engine.holdsData_construct hl
    | _ => trivial

theorem Process.holdsData_run (E : Env) (evs : List Event) (h : ∀ ev ∈ evs, ev.PutsData) :
    (run (Process.step E) Process.fresh evs).HoldsData := by
  induction evs using List.reverseRecOn with
  | nil => trivial
  | append_singleton evs ev ih =>
    rw [Run.run_concat]
    exact (ih fun x hx => h x (List.mem_append_left _ hx)).step (Process.layout_run E evs)
      (h ev (List.mem_append_right _ (List.mem_singleton_self ev)))

/-- **The visits of the live records agree with the lookups exactly if the
tables have no value of a key that is flagged in the memtable**, in every state
of every run that puts no empty values. -/
theorem forEachLive_iff (E : Env) (evs : List Event) (h : ∀ ev ∈ evs, ev.PutsData) (e : Engine) (d : Disk)
    (hrun : run (Process.step E) Process.fresh evs = .running e d) : e.Agrees ↔ e.FlaggedHidden := by
  have hlaid := Process.layout_run E evs
  have hdata := Process.holdsData_run E evs h
  rw [hrun] at hlaid hdata
  exact Engine.agrees_iff_flaggedHidden hlaid.immutable hdata

/-- Key 7 is put and flushed, and put and removed again before key 8 is put. -/
def removedTwice (evs : List Event) : List Event :=
  [.construct, .exec (.putRaw 7 [1] false ⟨0, 0⟩)] ++ evs ++
    [.exec (.putRaw 7 [2] false ⟨0, 0⟩), .exec (.remove 7 ⟨0, 0⟩), .exec (.putRaw 8 [3] false ⟨0, 0⟩)]

/-- The engine of the process, if it runs. -/
def Process.engine? : Process → Option Engine
  | .running e _ => some e
  | .stopped _ => none

/-- The first put is not flushed, so the tables have nothing. -/
theorem forEachLive_unflushed :
    ∃ e d, run (Process.step (Env.ofCrc crc32c)) Process.fresh (removedTwice []) = .running e d ∧ e.Agrees := by
  have hputs : ∀ ev ∈ removedTwice [], ev.PutsData := by
    simp [removedTwice, Event.PutsData]
  have hhidden : ∀ e d, run (Process.step (Env.ofCrc crc32c)) Process.fresh (removedTwice []) = .running e d →
      e.FlaggedHidden := by
    intro e d he k n hn ht
    have htables : (run (Process.step (Env.ofCrc crc32c)) Process.fresh (removedTwice [])).engine?.map (fun e =>
        e.l0Tables.length + e.l1Tables.length + e.l2Tables.length) = some 0 := by decide
    rw [he] at htables
    have hzero := Option.some.inj htables
    have h₀ := List.length_eq_zero_iff.mp (Nat.eq_zero_of_add_eq_zero (Nat.eq_zero_of_add_eq_zero hzero).1).1
    have h₁ := List.length_eq_zero_iff.mp (Nat.eq_zero_of_add_eq_zero (Nat.eq_zero_of_add_eq_zero hzero).1).2
    have h₂ := List.length_eq_zero_iff.mp (Nat.eq_zero_of_add_eq_zero hzero).2
    rw [Engine.tableHit, h₀, h₁, h₂]
    rfl
  cases he : run (Process.step (Env.ofCrc crc32c)) Process.fresh (removedTwice []) with
  | running e d => exact ⟨e, d, rfl, (forEachLive_iff (Env.ofCrc crc32c) _ hputs e d he).mpr (hhidden e d he)⟩
  | stopped d =>
    have hrunning : (run (Process.step (Env.ofCrc crc32c)) Process.fresh (removedTwice [])).engine?.isSome = true := by
      decide
    rw [he] at hrunning
    cases hrunning

/-- Once it is flushed, a lookup of key 7 finds the first put, and the visits
leave the key out. -/
theorem forEachLive_flushed : (∀ ev ∈ removedTwice [.exec .flush], ev.PutsData) ∧
    (run (Process.step (Env.ofCrc crc32c)) Process.fresh (removedTwice [.exec .flush])).engine?.map
      (fun e => (e.get 7, e.forEachLive)) = some (some [1], [(8, [3])]) :=
  ⟨by simp [removedTwice, Event.PutsData], by decide⟩

end Lsm
end Amind
