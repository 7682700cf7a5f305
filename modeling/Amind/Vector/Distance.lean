/-
# Distances

The distance of two vectors is computed in the way of the machine it is built for: with
eight lanes, with four, or pair by pair; with a fused product and sum, or not. What the
lanes have at the end is added in a tree, and the pairs behind the last block one by one.

Where the order of a sum does not matter, every build computes what the plain one does
(`distance_eq_scalar`). Where it matters, as with floats, a build still computes the same
distance both ways, bit for bit (`distance_comm`).
-/
import Amind.Lib.Lanes
import Amind.Retrieval.Ranking
import Amind.Vector.ColdSearch

namespace Amind
namespace Vector

open Amind.Core
open Lanes (lanes plain)

/-- What the sums are compiled for. -/
inductive Build
  | scalar | avx2 | sse | neon
  deriving DecidableEq

namespace Build

variable {F : Type} [Zero F] [Add F] [Mul F]

def width : Build → ℕ
  | .scalar => 0
  | .avx2 => 8
  | .sse | .neon => 4

/-- How many blocks there are: none if there are no lanes. -/
def blocks (b : Build) (dimension : ℕ) : ℕ := dimension / b.width

/-- A product added to a lane. `fma` rounds once. -/
def multiplyAdd (fma : F → F → F → F) (b : Build) (x y sum : F) : F :=
  match b with
  | .avx2 | .neon => fma x y sum
  | .sse | .scalar => sum + x * y

/-- The lanes added up: the upper half to the lower one, and then neighbours. -/
def horizontal (b : Build) (sums : List F) : F :=
  match b, sums with
  | .avx2, [s₀, s₁, s₂, s₃, s₄, s₅, s₆, s₇] => ((s₄ + s₀) + (s₅ + s₁)) + ((s₆ + s₂) + (s₇ + s₃))
  | .sse, [s₀, s₁, s₂, s₃] => (s₀ + s₁) + (s₂ + s₃)
  | .neon, [s₀, s₁, s₂, s₃] => (s₀ + s₁) + (s₂ + s₃)
  | _, _ => 0

/-- A sum of products of what is taken from each pair. -/
def accumulate (fma : F → F → F → F) (b : Build) (left right : F → F → F) (v w : List F) : F :=
  let n := b.blocks v.length
  let sums := lanes (fun x y => b.multiplyAdd fma (left x y) (right x y)) b.width n v w (List.replicate b.width 0)
  plain (fun x y sum => sum + left x y * right x y) (v.drop (n * b.width)) (w.drop (n * b.width)) (b.horizontal sums)

end Build

section Distances

variable {F : Type} [FloatOps F] [Neg F] (fma : F → F → F → F) (b : Build)

/-- The similarity of two vectors of one dimension; it throws if there is none. -/
def cosineSimilarity (v w : List F) : Except String F :=
  if v.length ≠ w.length then .error "cosineSimilarity: dimension mismatch"
  else if v.length = 0 then .error "cosineSimilarity: empty vectors"
  else
    let dotProduct := b.accumulate fma (fun x _ => x) (fun _ y => y) v w
    let normSquaredA := b.accumulate fma (fun x _ => x) (fun x _ => x) v w
    let normSquaredB := b.accumulate fma (fun _ y => y) (fun _ y => y) v w
    let denominator := sqrt normSquaredA * sqrt normSquaredB
    if denominator < 1e-10 then .ok 0 else .ok (dotProduct / denominator)

def cosineDistance (v w : List F) : Except String F := (cosineSimilarity fma b v w).map (1 - ·)

def l2DistanceSquared (v w : List F) : Except String F :=
  if v.length ≠ w.length then .error "l2DistanceSquared: dimension mismatch"
  else .ok (b.accumulate fma (fun x y => x - y) (fun x y => x - y) v w)

def innerProduct (v w : List F) : Except String F :=
  if v.length ≠ w.length then .error "innerProduct: dimension mismatch"
  else .ok (b.accumulate fma (fun x _ => x) (fun _ y => y) v w)

/-- `HNSWIndex::computeDistance`, and that of the cold tier. -/
def computeDistance (metric : DistanceMetric) (v w : List F) : Except String F :=
  match metric with
  | .cosine => cosineDistance fma b v w
  | .l2 => l2DistanceSquared fma b v w
  | .innerProduct => (innerProduct fma b v w).map (-·)

end Distances

/-! ### Where the order does not matter -/

/-- Sums can be taken in any order, and a fused product and sum is one and the other. -/
structure Exact {F : Type} [Zero F] [Add F] [Mul F] (fma : F → F → F → F) : Prop where
  assoc : ∀ x y z : F, x + y + z = x + (y + z)
  comm : ∀ x y : F, x + y = y + x
  zero : ∀ x : F, 0 + x = x
  fused : ∀ x y z : F, fma x y z = z + x * y

section Exact

variable {F : Type} [Zero F] [Add F] [Mul F] {fma : F → F → F → F}

/-- Such numbers are a monoid. -/
abbrev Exact.monoid (h : Exact fma) : AddCommMonoid F where
  add_assoc := h.assoc
  add_comm := h.comm
  zero_add := h.zero
  add_zero x := (h.comm x 0).trans (h.zero x)
  nsmul := nsmulRec

theorem multiplyAdd_eq (h : Exact fma) (b : Build) (x y sum : F) : b.multiplyAdd fma x y sum = sum + x * y := by
  cases b with
  | avx2 | neon => exact h.fused x y sum
  | sse | scalar => rfl

theorem horizontal_eq (h : Exact fma) (b : Build) {sums : List F} (hlen : sums.length = b.width) :
    b.horizontal sums = let _ := h.monoid; sums.sum := by
  let _ := h.monoid
  cases b with
  | scalar =>
    obtain rfl := List.length_eq_zero_iff.mp hlen
    rfl
  | avx2 =>
    match sums, hlen with
    | [s₀, s₁, s₂, s₃, s₄, s₅, s₆, s₇], _ =>
      change ((s₄ + s₀) + (s₅ + s₁)) + ((s₆ + s₂) + (s₇ + s₃)) = _
      simp only [List.sum_cons, List.sum_nil]
      abel
  | sse | neon =>
    match sums, hlen with
    | [s₀, s₁, s₂, s₃], _ =>
      change (s₀ + s₁) + (s₂ + s₃) = _
      simp only [List.sum_cons, List.sum_nil]
      abel

/-- A sum of products is what it should be. -/
theorem accumulate_sum (h : Exact fma) (b : Build) (left right : F → F → F) {v w : List F}
    (hlen : v.length = w.length) :
    b.accumulate fma left right v w =
      let _ := h.monoid; (List.zipWith (fun x y => left x y * right x y) v w).sum := by
  let _ := h.monoid
  have hfit : b.blocks v.length * b.width ≤ v.length := Nat.div_mul_le_self _ _
  have hzeros : (List.replicate b.width (0 : F)).length = b.width := List.length_replicate
  have hstep : ∀ x y sum : F, b.multiplyAdd fma (left x y) (right x y) sum = sum + left x y * right x y :=
    fun x y sum => multiplyAdd_eq h b _ _ sum
  have hfit' : b.blocks v.length * b.width ≤ w.length := hfit.trans hlen.le
  have hsums := Lanes.sum_lanes hstep hzeros hfit hfit'
  have hlanes := Lanes.length_lanes (fun x y => b.multiplyAdd fma (left x y) (right x y)) hzeros hfit hfit'
  unfold Build.accumulate
  dsimp only
  rw [horizontal_eq h b hlanes, Lanes.plain_eq (f := fun x y => left x y * right x y) fun _ _ _ => rfl]
  refine hsums.trans ?_
  rw [List.sum_replicate, nsmul_zero, zero_add]

/-- A sum is the same in every build. -/
theorem accumulate_eq (h : Exact fma) (b : Build) (left right : F → F → F) {v w : List F} (hlen : v.length = w.length) :
    b.accumulate fma left right v w = Build.scalar.accumulate fma left right v w := by
  rw [accumulate_sum h b left right hlen, accumulate_sum h .scalar left right hlen]

end Exact

section Builds

variable {F : Type} [FloatOps F] [Neg F] {fma : F → F → F → F}

/-- **Every build computes the same distance**, where the order of a sum does not matter. -/
theorem distance_eq_scalar (h : Exact fma) (b : Build) (metric : DistanceMetric) (v w : List F) :
    computeDistance fma b metric v w = computeDistance fma .scalar metric v w := by
  by_cases hlen : v.length = w.length
  · have hsame : ∀ left right : F → F → F,
        b.accumulate fma left right v w = Build.scalar.accumulate fma left right v w :=
      fun left right => accumulate_eq h b left right hlen
    cases metric <;>
      simp only [computeDistance, cosineDistance, cosineSimilarity, l2DistanceSquared, innerProduct, hsame]
  · cases metric <;>
      simp only [computeDistance, cosineDistance, cosineSimilarity, l2DistanceSquared, innerProduct, ne_eq, hlen,
        not_false_eq_true, if_true]

/-- Rationals, whose products and sums are exact. -/
def fusedRational (x y z : ℚ) : ℚ := z + x * y

theorem exact_fusedRational : Exact fusedRational := ⟨add_assoc, add_comm, zero_add, fun _ _ _ => rfl⟩

def nines : List ℚ := [9, 9, 9, 9, 9, 9, 9, 9, 9]

def upToNine : List ℚ := [1, 2, 3, 4, 5, 6, 7, 8, 9]

/-- One block of eight lanes, and a pair behind it. -/
theorem distance_upToNine : computeDistance fusedRational .avx2 .l2 upToNine nines = .ok 204 :=
  (distance_eq_scalar exact_fusedRational .avx2 .l2 upToNine nines).trans (by decide +kernel)

/-- What is the same whichever of the vectors comes first. -/
structure Symmetric (fma : F → F → F → F) : Prop where
  mul : ∀ x y : F, x * y = y * x
  fused : ∀ x y z : F, fma x y z = fma y x z
  square : ∀ x y : F, (x - y) * (x - y) = (y - x) * (y - x)
  fusedSquare : ∀ x y z : F, fma (x - y) (x - y) z = fma (y - x) (y - x) z

theorem lanes_swap {α β M : Type} {step : α → β → M → M} {step' : β → α → M → M}
    (h : ∀ a b m, step a b m = step' b a m) (k : ℕ) : ∀ (n : ℕ) (as : List α) (bs : List β) (ms : List M),
      lanes step k n as bs ms = lanes step' k n bs as ms := by
  have hblock : ∀ (as : List α) (bs : List β) (ms : List M),
      Lanes.block step as bs ms = Lanes.block step' bs as ms := by
    intro as bs ms
    induction as generalizing bs ms with
    | nil => cases bs <;> rfl
    | cons a as ih =>
      cases bs with
      | nil => rfl
      | cons b bs =>
        cases ms with
        | nil => rfl
        | cons m ms => rw [Lanes.block, Lanes.block, h, ih]
  intro n
  induction n with
  | zero => exact fun _ _ _ => rfl
  | succ n ih =>
    intro as bs ms
    rw [lanes, lanes, hblock, ih]

theorem plain_swap {α β M : Type} {step : α → β → M → M} {step' : β → α → M → M}
    (h : ∀ a b m, step a b m = step' b a m) : ∀ (as : List α) (bs : List β) (m : M),
      plain step as bs m = plain step' bs as m
  | [], [], _ => rfl
  | [], _ :: _, _ => rfl
  | _ :: _, [], _ => rfl
  | a :: as, b :: bs, m => by
    have ih := plain_swap h as bs (step a b m)
    change plain step as bs (step a b m) = plain step' bs as (step' b a m)
    rw [ih, h]

omit [Neg F] in
/-- A sum is the same both ways, if each product is. -/
theorem accumulate_swap {b : Build} {left right left' right' : F → F → F} {v w : List F} (hlen : v.length = w.length)
    (hmul : ∀ x y : F, left x y * right x y = left' y x * right' y x)
    (hfused : ∀ x y z : F, fma (left x y) (right x y) z = fma (left' y x) (right' y x) z) :
    b.accumulate fma left right v w = b.accumulate fma left' right' w v := by
  have hstep : ∀ x y sum : F, b.multiplyAdd fma (left x y) (right x y) sum =
      b.multiplyAdd fma (left' y x) (right' y x) sum := by
    intro x y sum
    cases b with
    | avx2 | neon => exact hfused x y sum
    | sse | scalar => exact congrArg (sum + ·) (hmul x y)
  unfold Build.accumulate
  dsimp only
  rw [← hlen, lanes_swap hstep, plain_swap (fun x y sum => congrArg (sum + ·) (hmul x y))]

/-- **A distance is the same both ways**, in every build, with no assumption on sums. -/
theorem distance_comm (h : Symmetric fma) (b : Build) (metric : DistanceMetric) (v w : List F) :
    computeDistance fma b metric v w = computeDistance fma b metric w v := by
  by_cases hlen : v.length = w.length
  · have hdot : b.accumulate fma (fun x _ => x) (fun _ y => y) v w =
        b.accumulate fma (fun x _ => x) (fun _ y => y) w v :=
      accumulate_swap hlen h.mul h.fused
    cases metric with
    | cosine =>
      -- what is a norm of one vector is taken from the other side
      have hnormA : b.accumulate fma (fun x _ => x) (fun x _ => x) v w =
          b.accumulate fma (fun _ y => y) (fun _ y => y) w v :=
        accumulate_swap hlen (fun _ _ => rfl) fun _ _ _ => rfl
      have hnormB : b.accumulate fma (fun _ y => y) (fun _ y => y) v w =
          b.accumulate fma (fun x _ => x) (fun x _ => x) w v :=
        accumulate_swap hlen (fun _ _ => rfl) fun _ _ _ => rfl
      simp only [computeDistance, cosineDistance, cosineSimilarity, hdot, hnormA, hnormB, hlen, h.mul (sqrt _) (sqrt _)]
    | l2 =>
      have hsquares : b.accumulate fma (fun x y => x - y) (fun x y => x - y) v w =
          b.accumulate fma (fun x y => x - y) (fun x y => x - y) w v :=
        accumulate_swap hlen h.square h.fusedSquare
      simp only [computeDistance, l2DistanceSquared, hsquares, hlen]
    | innerProduct => simp only [computeDistance, innerProduct, hdot, hlen]
  · have hlen' : ¬ w.length = v.length := fun h => hlen h.symm
    cases metric <;>
      simp only [computeDistance, cosineDistance, cosineSimilarity, l2DistanceSquared, innerProduct, ne_eq, hlen, hlen',
        not_false_eq_true, if_true]

/-- Of numbers whose products commute, the fused product and sum does as well. -/
theorem symmetric_fusedRational : Symmetric fusedRational where
  mul := mul_comm
  fused x y z := by rw [fusedRational, fusedRational, mul_comm x y]
  square x y := by ring
  fusedSquare x y z := by
    unfold fusedRational
    ring

theorem distance_upToNine_comm :
    computeDistance fusedRational .avx2 .l2 upToNine nines = computeDistance fusedRational .avx2 .l2 nines upToNine :=
  distance_comm symmetric_fusedRational .avx2 .l2 upToNine nines

end Builds

end Vector
end Amind
