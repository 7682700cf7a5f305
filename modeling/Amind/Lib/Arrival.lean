/-
# Reading what arrives in pieces

A reader adds each piece that arrives to what it has, until what it has is complete,
and leaves the pieces behind it. A row of messages is read one by one, each after the
one before and however they are cut, if and only if each of them is complete and no
proper start of it is (`converse_iff`): one that is complete before its end leaves
pieces for the next.
-/
import Mathlib.Data.List.Infix

namespace Amind
namespace Arrival

variable {α : Type} (complete : List α → Bool)

/-- Read until what was read is complete; what is left is behind. -/
def readUntil : List (List α) → List α → Option (List α × List (List α))
  | [], _ => none
  | p :: ps, s => if complete (s ++ p) = true then some (s ++ p, ps) else readUntil ps (s ++ p)

/-- The pieces of a message, none of them empty. -/
structure Cut (pieces : List (List α)) (s : List α) : Prop where
  flatten : pieces.flatten = s
  nonempty : ∀ p ∈ pieces, p ≠ []

/-- The message is complete, and no proper start of it. -/
structure Framed (s : List α) : Prop where
  whole : complete s = true
  start : ∀ p, p <+: s → p ≠ [] → p ≠ s → complete p = false

/-- What a reader gets that waits for each message before the next is sent. It gets no
more once it waits for what never comes. -/
def converse : List (List (List α)) → List (List α) → List (List α)
  | [], _ => []
  | pieces :: more, pending =>
    match readUntil complete (pending ++ pieces) [] with
    | none => []
    | some (s, rest) => s :: converse more rest

variable {complete}

theorem readUntil_cut {s : List α} (h : Framed complete s) : ∀ {pieces : List (List α)} {front : List α}
    (rest : List (List α)), (∀ p ∈ pieces, p ≠ []) → front ++ pieces.flatten = s → front ≠ s →
    readUntil complete (pieces ++ rest) front = some (s, rest)
  | [], front, rest, _, hs, hne => by
    rw [List.flatten_nil, List.append_nil] at hs
    exact absurd hs hne
  | p :: ps, front, rest, hp, hs, hne => by
    obtain ⟨hpne, hps⟩ := List.forall_mem_cons.mp hp
    rw [List.flatten_cons, ← List.append_assoc] at hs
    rw [List.cons_append, readUntil]
    by_cases hlast : front ++ p = s
    · have hnil : ps = [] := by
        rw [hlast, List.append_right_eq_self, List.flatten_eq_nil_iff] at hs
        exact List.eq_nil_iff_forall_not_mem.mpr fun q hq => hps q hq (hs q hq)
      rw [hlast, if_pos h.whole, hnil, List.nil_append]
    · have hstart := h.start (front ++ p) ⟨_, hs⟩ (List.append_ne_nil_of_right_ne_nil _ hpne) hlast
      rw [if_neg (by rw [hstart]; exact Bool.false_ne_true)]
      exact readUntil_cut h rest hps hs hlast

/-- A message that is framed is read however it is cut, and nothing behind it. -/
theorem Framed.readUntil {s : List α} (h : Framed complete s) (hne : s ≠ []) {pieces : List (List α)}
    (hc : Cut pieces s) (rest : List (List α)) : readUntil complete (pieces ++ rest) [] = some (s, rest) :=
  readUntil_cut h rest hc.nonempty (by rw [List.nil_append, hc.flatten]) hne.symm

/-- A message is one piece, or two. -/
theorem cut_one {s : List α} (hne : s ≠ []) : Cut [s] s :=
  ⟨List.flatten_singleton, List.forall_mem_singleton.mpr hne⟩

theorem cut_two {p q : List α} (hp : p ≠ []) (hq : q ≠ []) : Cut [p, q] (p ++ q) where
  flatten := by rw [List.flatten_cons, List.flatten_singleton]
  nonempty := List.forall_mem_cons.mpr ⟨hp, List.forall_mem_singleton.mpr hq⟩

/-- One that is not framed is not read where it comes at once, or in two pieces. -/
theorem exists_cut_of_not_framed {s : List α} (hne : s ≠ []) (h : ¬ Framed complete s) :
    ∃ pieces, Cut pieces s ∧ ∀ rest, readUntil complete pieces [] ≠ some (s, rest) := by
  by_cases hwhole : complete s = true
  · obtain ⟨p, hp, hpne, hps, hcomplete⟩ : ∃ p, p <+: s ∧ p ≠ [] ∧ p ≠ s ∧ complete p = true := by
      by_contra hnone
      push Not at hnone
      exact h ⟨hwhole, fun p hp hpne hps => Bool.eq_false_iff.mpr (hnone p hp hpne hps)⟩
    obtain ⟨q, rfl⟩ := hp
    have hq : q ≠ [] := fun hnil => hps (by rw [hnil, List.append_nil])
    refine ⟨[p, q], cut_two hpne hq, fun rest hread => ?_⟩
    rw [Arrival.readUntil, List.nil_append, if_pos hcomplete] at hread
    exact hps (Prod.mk.inj (Option.some.inj hread)).1
  · refine ⟨[s], cut_one hne, fun rest hread => ?_⟩
    rw [Arrival.readUntil, List.nil_append, if_neg hwhole] at hread
    cases hread

/-- Each of the messages, cut in some way. -/
def Cuts (cuts : List (List (List α))) (messages : List (List α)) : Prop := List.Forall₂ Cut cuts messages

theorem converse_of_framed : ∀ {messages : List (List α)} {cuts : List (List (List α))},
    (∀ m ∈ messages, m ≠ []) → (∀ m ∈ messages, Framed complete m) → Cuts cuts messages →
    converse complete cuts [] = messages
  | [], _, _, _, .nil => rfl
  | m :: ms, pieces :: cuts, hne, hall, .cons hc hcs => by
    obtain ⟨hm, hms⟩ := List.forall_mem_cons.mp hne
    obtain ⟨hf, hfs⟩ := List.forall_mem_cons.mp hall
    have hread := hf.readUntil hm hc []
    rw [List.append_nil] at hread
    rw [converse, List.nil_append, hread]
    dsimp only
    rw [converse_of_framed hms hfs hcs]

/-- Each message in one piece. -/
theorem cuts_one {messages : List (List α)} (hne : ∀ m ∈ messages, m ≠ []) :
    Cuts (messages.map fun m => [m]) messages := by
  induction messages with
  | nil => exact .nil
  | cons m ms ih =>
    obtain ⟨hm, hms⟩ := List.forall_mem_cons.mp hne
    exact .cons (cut_one hm) (ih hms)

/-- **A row of messages is read one by one**, however each is cut, if and only if each is
framed. -/
theorem converse_iff {messages : List (List α)} (hne : ∀ m ∈ messages, m ≠ []) :
    (∀ cuts, Cuts cuts messages → converse complete cuts [] = messages) ↔ ∀ m ∈ messages, Framed complete m := by
  refine ⟨?_, fun hall cuts hc => converse_of_framed hne hall hc⟩
  induction messages with
  | nil => exact fun _ _ hm => absurd hm List.not_mem_nil
  | cons m ms ih =>
    obtain ⟨hm, hms⟩ := List.forall_mem_cons.mp hne
    intro hall
    have hfirst : Framed complete m := by
      by_contra h
      obtain ⟨pieces, hc, hread⟩ := exists_cut_of_not_framed hm h
      have hrun := hall (pieces :: ms.map fun m => [m]) (.cons hc (cuts_one hms))
      rw [converse, List.nil_append] at hrun
      cases hx : readUntil complete pieces [] with
      | none =>
        rw [hx] at hrun
        cases hrun
      | some x =>
        obtain ⟨s, rest⟩ := x
        rw [hx] at hrun
        obtain ⟨rfl, -⟩ := List.cons.inj hrun
        exact hread rest hx
    refine List.forall_mem_cons.mpr ⟨hfirst, ih hms fun cuts hc => ?_⟩
    have hrun := hall ([m] :: cuts) (.cons (cut_one hm) hc)
    have hread := hfirst.readUntil hm (cut_one hm) []
    rw [List.append_nil] at hread
    rw [converse, List.nil_append, hread] at hrun
    exact (List.cons.inj hrun).2

end Arrival
end Amind
