/-
# Runs of a step function

A run is a list of operations applied from a state. `Along C s os` says that
every step of it meets `C` in the state it starts from; `run_inv` is the rule
the developments use: what holds at the start and is kept by every step that
meets `C` holds after the run. The invariant may speak of the operations so
far, oldest first. A step function that simulates another through a map of
states, as long as the steps meet `C`, does so over whole runs.

Between the operations something beside them may change the state: `pausing` is
a step function with such pauses. A pause is `Still` in a state that it leaves as
it is. A run whose pauses are all still is the run of its operations
(`run_pausing`), with the same conditions along it (`along_pausing`) and the same
states on the way (`forall_prefix`).
-/
import Mathlib.Data.List.Induction

namespace Amind
namespace Run

variable {S O : Type} (step : S → O → S)

/-- The state after the operations `os`, in order. -/
def run (s : S) (os : List O) : S := os.foldl step s

/-- Every step of the run meets `C`. -/
def Along (C : S → O → Prop) : S → List O → Prop
  | _, [] => True
  | s, o :: os => C s o ∧ Along C (step s o) os

instance Along.decidable (C : S → O → Prop) [∀ s o, Decidable (C s o)] : ∀ s os, Decidable (Along step C s os)
  | _, [] => inferInstanceAs (Decidable True)
  | s, o :: os =>
    have := Along.decidable C (step s o) os
    inferInstanceAs (Decidable (C s o ∧ Along step C (step s o) os))

@[simp] theorem run_nil (s : S) : run step s [] = s := rfl

@[simp] theorem run_cons (s : S) (o : O) (os : List O) : run step s (o :: os) = run step (step s o) os :=
  rfl

theorem run_append (s : S) (os os' : List O) : run step s (os ++ os') = run step (run step s os) os' := by
  simp [run]

theorem run_concat (s : S) (os : List O) (o : O) : run step s (os ++ [o]) = step (run step s os) o := by
  simp [run]

variable {step}

theorem along_append {C : S → O → Prop} : ∀ {s : S} {os os' : List O},
    Along step C s (os ++ os') ↔ Along step C s os ∧ Along step C (run step s os) os'
  | _, [], _ => by simp [Along]
  | s, o :: os, os' => by
    have ih := @along_append C (step s o) os os'
    simp [Along, ih, and_assoc]

theorem along_concat {C : S → O → Prop} {s : S} {os : List O} {o : O} :
    Along step C s (os ++ [o]) ↔ Along step C s os ∧ C (run step s os) o := by
  rw [along_append]
  simp [Along]

theorem along_true : ∀ (s : S) (os : List O), Along step (fun _ _ => True) s os
  | _, [] => trivial
  | _, _ :: _ => ⟨trivial, along_true _ _⟩

/-- Either every step of a run meets `C`, or there is a first one that does not. -/
theorem along_or_first (step : S → O → S) (C : S → O → Prop) : ∀ (s : S) (os : List O),
    Along step C s os ∨
      ∃ pre o post, os = pre ++ o :: post ∧ Along step C s pre ∧ ¬C (run step s pre) o
  | _, [] => .inl trivial
  | s, o :: os => by
    by_cases ho : C s o
    · obtain h | ⟨pre, o', post, rfl, hpre, ho'⟩ := along_or_first step C (step s o) os
      · exact .inl ⟨ho, h⟩
      · exact .inr ⟨o :: pre, o', post, rfl, ⟨ho, hpre⟩, ho'⟩
    · exact .inr ⟨[], o, os, rfl, trivial, ho⟩

theorem Along.and {C C' : S → O → Prop} : ∀ {s : S} {os : List O},
    Along step C s os → Along step C' s os → Along step (fun s o => C s o ∧ C' s o) s os
  | _, [], _, _ => trivial
  | _, _ :: _, h, h' => ⟨⟨h.1, h'.1⟩, h.2.and h'.2⟩

theorem Along.imp {C C' : S → O → Prop} (h : ∀ s o, C s o → C' s o) : ∀ {s : S} {os : List O},
    Along step C s os → Along step C' s os
  | _, [], _ => trivial
  | _, _ :: _, hc => ⟨h _ _ hc.1, hc.2.imp h⟩

/-- The invariant rule: `I` holds at the start, every step that meets `C`
keeps it, so it holds after the run. -/
theorem run_inv (step : S → O → S) {I : List O → S → Prop} {C : S → O → Prop}
    (hstep : ∀ h s o, I h s → C s o → I (h ++ [o]) (step s o)) :
    ∀ (os h : List O) (s : S), I h s → Along step C s os → I (h ++ os) (run step s os)
  | [], h, s, hi, _ => by simpa using hi
  | o :: os, h, s, hi, ha => by
    have := run_inv step hstep os (h ++ [o]) (step s o) (hstep h s o hi ha.1) ha.2
    simpa using this

/-- What the invariant gives at each step holds along the run. -/
theorem Along.of_inv {I : S → Prop} {C P : S → O → Prop} (hstep : ∀ s o, I s → C s o → I (step s o))
    (hP : ∀ s o, I s → C s o → P s o) : ∀ {os : List O} {s : S}, I s → Along step C s os → Along step P s os
  | [], _, _, _ => trivial
  | _ :: _, _, hi, hc => ⟨hP _ _ hi hc.1, Along.of_inv hstep hP (hstep _ _ hi hc.1) hc.2⟩

/-- When a step breaks `P` exactly if it does not meet `C`: a run has `P` after
each of its steps if and only if all of them meet `C`. `I` is what carries the
argument from step to step, `D` what is known of all steps. -/
theorem along_iff_of_inv {I P : List O → S → Prop} {D C : S → O → Prop}
    (hstep : ∀ h s o, I h s → D s o → C s o → I (h ++ [o]) (step s o)) (hP : ∀ h s, I h s → P h s)
    (hC : ∀ h s o, I h s → D s o → P (h ++ [o]) (step s o) → C s o) {s : S} (hs : I [] s) {os : List O}
    (hd : Along step D s os) :
    (∀ pre, pre <+: os → P pre (run step s pre)) ↔ Along step C s os := by
  have hrun : ∀ pre, pre <+: os → Along step C s pre → I pre (run step s pre) := by
    rintro pre ⟨post, rfl⟩ ha
    have hboth := (along_append.mp hd).1.and ha
    simpa using run_inv step (fun h s o hi hc => hstep h s o hi hc.1 hc.2) pre [] s hs hboth
  constructor
  · intro h
    induction os using List.reverseRecOn with
    | nil => trivial
    | append_singleton os o ih =>
      obtain ⟨hd₁, hd₂⟩ := along_concat.mp hd
      have hpre : os <+: os ++ [o] := List.prefix_append os [o]
      have ha : Along step C s os :=
        ih hd₁ (fun pre hp => hrun pre (hp.trans hpre)) fun pre hp => h pre (hp.trans hpre)
      have hlast := h _ (List.prefix_refl _)
      rw [run_concat] at hlast
      exact along_concat.mpr ⟨ha, hC _ _ _ (hrun os hpre ha) hd₂ hlast⟩
  · intro ha pre hp
    obtain ⟨post, rfl⟩ := hp
    exact hP _ _ (hrun pre ⟨post, rfl⟩ (along_append.mp ha).1)

/-! ### Simulation -/

section Simulation

variable {S' : Type} {step : S → O → S} {step' : S' → O → S'} {σ : S → S'} {I : S → Prop} {C : S → O → Prop}

/-- `σ` maps a run whose steps meet `C` to a run. -/
theorem run_simulates (hstep : ∀ s o, I s → C s o → I (step s o) ∧ σ (step s o) = step' (σ s) o) :
    ∀ {os : List O} {s : S}, I s → Along step C s os → I (run step s os) ∧ σ (run step s os) = run step' (σ s) os
  | [], _, hi, _ => ⟨hi, rfl⟩
  | o :: os, s, hi, hc => by
    obtain ⟨hi', hσ⟩ := hstep s o hi hc.1
    have ih := run_simulates hstep hi' hc.2
    rw [hσ] at ih
    exact ih

/-- The steps of the run meet what those of its image do. -/
theorem along_simulates (hstep : ∀ s o, I s → C s o → I (step s o) ∧ σ (step s o) = step' (σ s) o)
    (P : S' → O → Prop) : ∀ {os : List O} {s : S}, I s → Along step C s os →
    (Along step (fun s o => P (σ s) o) s os ↔ Along step' P (σ s) os)
  | [], _, _, _ => Iff.rfl
  | o :: os, s, hi, hc => by
    obtain ⟨hi', hσ⟩ := hstep s o hi hc.1
    have ih := along_simulates hstep P hi' hc.2
    rw [hσ] at ih
    exact and_congr Iff.rfl ih

/-- If `C` is a condition on images, the image of the run decides it. -/
theorem along_of_image {P : S' → O → Prop}
    (hstep : ∀ s o, I s → P (σ s) o → I (step s o) ∧ σ (step s o) = step' (σ s) o) :
    ∀ {os : List O} {s : S}, I s → Along step' P (σ s) os → Along step (fun s o => P (σ s) o) s os
  | [], _, _, _ => trivial
  | o :: os, s, hi, hp => by
    obtain ⟨hi', hσ⟩ := hstep s o hi hp.1
    exact ⟨hp.1, along_of_image hstep hi' (hσ ▸ hp.2)⟩

end Simulation

/-! ### Pauses -/

section Pauses

/-- An operation, or a pause. -/
inductive Paused (O P : Type)
  | op (o : O)
  | pause (p : P)

variable {S O P : Type}

def Paused.toOp : Paused O P → Option O
  | .op o => some o
  | .pause _ => none

/-- The operations, without the pauses. -/
def operations (es : List (Paused O P)) : List O := es.filterMap Paused.toOp

theorem operations_map (os : List O) : operations (os.map (Paused.op (P := P))) = os := by
  induction os with
  | nil => rfl
  | cons o os ih => exact congrArg (List.cons o) ih

theorem operations_append (es es' : List (Paused O P)) : operations (es ++ es') = operations es ++ operations es' :=
  List.filterMap_append

variable (step : S → O → S) (settle : S → P → S)

/-- One step, with what a pause does to the state. -/
def pausing (s : S) : Paused O P → S
  | .op o => step s o
  | .pause p => settle s p

/-- A pause leaves the state as it is. -/
def Still (s : S) : Paused O P → Prop
  | .op _ => True
  | .pause p => settle s p = s

/-- The operations meet `C`. -/
def OnOps (C : S → O → Prop) (s : S) : Paused O P → Prop
  | .op o => C s o
  | .pause _ => True

variable {step settle} {s : S} {es : List (Paused O P)}

theorem still_map : ∀ (os : List O) (s : S), Along (pausing step settle) (Still settle) s (os.map .op)
  | [], _ => trivial
  | _ :: os, _ => ⟨trivial, still_map os _⟩

theorem run_pausing : ∀ {es : List (Paused O P)} {s : S}, Along (pausing step settle) (Still settle) s es →
    run (pausing step settle) s es = run step s (operations es)
  | [], _, _ => rfl
  | .op o :: es, s, h => by
    have hrest : Along (pausing step settle) (Still settle) (step s o) es := h.2
    show run (pausing step settle) (step s o) es = run step (step s o) (operations es)
    exact run_pausing hrest
  | .pause p :: es, s, h => by
    have hs : settle s p = s := h.1
    have hrest : Along (pausing step settle) (Still settle) (settle s p) es := h.2
    rw [hs] at hrest
    show run (pausing step settle) (settle s p) es = _
    rw [hs]
    exact run_pausing hrest

theorem along_pausing (C : S → O → Prop) : ∀ {es : List (Paused O P)} {s : S},
    Along (pausing step settle) (Still settle) s es →
    (Along (pausing step settle) (OnOps C) s es ↔ Along step C s (operations es))
  | [], _, _ => Iff.rfl
  | .op o :: es, s, h => by
    have hrest : Along (pausing step settle) (Still settle) (step s o) es := h.2
    exact and_congr Iff.rfl (along_pausing C hrest)
  | .pause p :: es, s, h => by
    have hs : settle s p = s := h.1
    have hrest : Along (pausing step settle) (Still settle) (settle s p) es := h.2
    rw [hs] at hrest
    show True ∧ Along (pausing step settle) (OnOps C) (settle s p) es ↔ _
    rw [hs, true_and]
    exact along_pausing C hrest

/-- Operations, and a pause that is still behind them. -/
theorem still_map_pause {os : List O} {p : P} (h : settle (run step s os) p = run step s os) :
    Along (pausing step settle) (Still settle) s (os.map .op ++ [.pause p]) := by
  have hops : Along (pausing step settle) (Still settle) s (os.map .op) := still_map os s
  refine along_append.mpr ⟨hops, ?_, trivial⟩
  rw [run_pausing hops, operations_map]
  exact h

theorem operations_map_pause (os : List O) (p : P) : operations (os.map .op ++ [.pause p]) = os := by
  rw [operations_append]
  exact (List.append_nil _).trans (operations_map os)

theorem operations_before {pre : List (Paused O P)} (h : pre <+: es) : operations pre <+: operations es :=
  h.filterMap _

/-- What has been done of the operations has been done at some point. -/
theorem exists_prefix : ∀ {es : List (Paused O P)} {before : List O}, before <+: operations es →
    ∃ pre, pre <+: es ∧ operations pre = before
  | [], before, h => ⟨[], List.prefix_refl _, (List.prefix_nil.mp h).symm⟩
  | .op o :: es, [], _ => ⟨[], List.nil_prefix, rfl⟩
  | .op o :: es, o' :: before, h => by
    have hcons : o' :: before <+: o :: operations es := h
    obtain ⟨rfl, hrest⟩ := List.cons_prefix_cons.mp hcons
    obtain ⟨pre, hpre, rfl⟩ := exists_prefix hrest
    exact ⟨.op o' :: pre, List.cons_prefix_cons.mpr ⟨rfl, hpre⟩, rfl⟩
  | .pause p :: es, before, h => by
    have hbefore : before <+: operations es := h
    obtain ⟨pre, hpre, rfl⟩ := exists_prefix hbefore
    exact ⟨.pause p :: pre, List.cons_prefix_cons.mpr ⟨rfl, hpre⟩, rfl⟩

theorem Along.of_before {C : S → Paused O P → Prop} {pre : List (Paused O P)} (hpre : pre <+: es)
    (h : Along (pausing step settle) C s es) : Along (pausing step settle) C s pre := by
  obtain ⟨rest, rfl⟩ := hpre
  exact (along_append.mp h).1

/-- The states on the way are those of the operations. -/
theorem forall_prefix (h : Along (pausing step settle) (Still settle) s es) (Q : S → Prop) :
    (∀ pre, pre <+: es → Q (run (pausing step settle) s pre)) ↔
      ∀ before, before <+: operations es → Q (run step s before) := by
  constructor
  · intro hall before hbefore
    obtain ⟨pre, hpre, rfl⟩ := exists_prefix hbefore
    have hq := hall pre hpre
    rwa [run_pausing (h.of_before hpre)] at hq
  · intro hall pre hpre
    rw [run_pausing (h.of_before hpre)]
    exact hall _ (operations_before hpre)

end Pauses

end Run
end Amind
