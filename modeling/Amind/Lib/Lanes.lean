/-
# A sum in lanes

A sum over two lists is taken block by block: a block has as many pairs as there are
lanes, and each lane adds its pair of the block to what it has. Where the order of a sum
does not matter, the lanes together have the sum of all blocks (`sum_lanes`).
-/
import Mathlib.Algebra.BigOperators.Group.List.Basic
import Mathlib.Tactic.Abel

namespace Amind
namespace Lanes

variable {α β M : Type} (step : α → β → M → M)

/-- One block: a pair for each lane. -/
def block : List α → List β → List M → List M
  | a :: as, b :: bs, m :: ms => step a b m :: block as bs ms
  | _, _, _ => []

/-- The lanes after so many blocks of `w` pairs. -/
def lanes (w : ℕ) : ℕ → List α → List β → List M → List M
  | 0, _, _, ms => ms
  | n + 1, as, bs, ms => lanes w n (as.drop w) (bs.drop w) (block step (as.take w) (bs.take w) ms)

/-- The pairs one by one. -/
def plain (as : List α) (bs : List β) (m : M) : M := (as.zip bs).foldl (fun m p => step p.1 p.2 m) m

theorem length_block : ∀ (as : List α) (bs : List β) (ms : List M),
    as.length = ms.length → bs.length = ms.length → (block step as bs ms).length = ms.length
  | [], [], [], _, _ => rfl
  | [], _ :: _, _, ha, hb => by cases ha.trans hb.symm
  | _ :: _, [], _, ha, hb => by cases ha.trans hb.symm
  | a :: as, b :: bs, m :: ms, ha, hb => by
    have ih := length_block as bs ms (Nat.succ.inj ha) (Nat.succ.inj hb)
    rw [block, List.length_cons, List.length_cons, ih]

theorem length_lanes {w : ℕ} : ∀ {n : ℕ} {as : List α} {bs : List β} {ms : List M}, ms.length = w →
    n * w ≤ as.length → n * w ≤ bs.length → (lanes step w n as bs ms).length = w
  | 0, _, _, _, hm, _, _ => hm
  | n + 1, as, bs, ms, hm, ha, hb => by
    rw [Nat.succ_mul] at ha hb
    have hblock : (block step (as.take w) (bs.take w) ms).length = w := by
      rw [length_block, hm]
      · rw [List.length_take, hm]
        omega
      · rw [List.length_take, hm]
        omega
    rw [lanes]
    refine length_lanes hblock ?_ ?_
    · rw [List.length_drop]
      omega
    · rw [List.length_drop]
      omega

section Sums

variable [AddCommMonoid M] {step} {f : α → β → M}

theorem sum_block (hstep : ∀ a b m, step a b m = m + f a b) : ∀ (as : List α) (bs : List β) (ms : List M),
    as.length = ms.length → bs.length = ms.length →
      (block step as bs ms).sum = ms.sum + (List.zipWith f as bs).sum
  | [], [], [], _, _ => (add_zero _).symm
  | [], _ :: _, _, ha, hb => by cases ha.trans hb.symm
  | _ :: _, [], _, ha, hb => by cases ha.trans hb.symm
  | a :: as, b :: bs, m :: ms, ha, hb => by
    have ih := sum_block hstep as bs ms (Nat.succ.inj ha) (Nat.succ.inj hb)
    rw [block, List.zipWith_cons_cons, List.sum_cons, List.sum_cons, List.sum_cons, ih, hstep]
    abel

theorem plain_eq (hstep : ∀ a b m, step a b m = m + f a b) : ∀ (as : List α) (bs : List β) (m : M),
    plain step as bs m = m + (List.zipWith f as bs).sum
  | [], _, m => (add_zero m).symm
  | _ :: _, [], m => (add_zero m).symm
  | a :: as, b :: bs, m => by
    have ih := plain_eq hstep as bs (step a b m)
    have hcons : plain step (a :: as) (b :: bs) m = plain step as bs (step a b m) := rfl
    rw [hcons, ih, List.zipWith_cons_cons, List.sum_cons, hstep, add_assoc]

/-- **The lanes together** have the sum of the blocks. -/
theorem sum_lanes (hstep : ∀ a b m, step a b m = m + f a b) {w : ℕ} :
    ∀ {n : ℕ} {as : List α} {bs : List β} {ms : List M},
    ms.length = w → n * w ≤ as.length → n * w ≤ bs.length →
      (lanes step w n as bs ms).sum + (List.zipWith f (as.drop (n * w)) (bs.drop (n * w))).sum =
        ms.sum + (List.zipWith f as bs).sum
  | 0, as, bs, ms, _, _, _ => by rw [Nat.zero_mul, List.drop_zero, List.drop_zero, lanes]
  | n + 1, as, bs, ms, hm, ha, hb => by
    rw [Nat.succ_mul] at ha hb
    have htakeA : (as.take w).length = ms.length := by
      rw [List.length_take, hm]
      omega
    have htakeB : (bs.take w).length = ms.length := by
      rw [List.length_take, hm]
      omega
    have hblock : (block step (as.take w) (bs.take w) ms).length = w := by
      rw [length_block step _ _ _ htakeA htakeB, hm]
    have ih := @sum_lanes hstep w n (as.drop w) (bs.drop w) _ hblock
      (by rw [List.length_drop]; omega) (by rw [List.length_drop]; omega)
    have hsplit : (List.zipWith f as bs).sum =
        (List.zipWith f (as.take w) (bs.take w)).sum + (List.zipWith f (as.drop w) (bs.drop w)).sum := by
      have hboth : List.zipWith f as bs =
          List.zipWith f (as.take w) (bs.take w) ++ List.zipWith f (as.drop w) (bs.drop w) := by
        rw [← List.zipWith_append (by rw [htakeA, htakeB]), List.take_append_drop, List.take_append_drop]
      rw [hboth, List.sum_append]
    rw [List.drop_drop, List.drop_drop] at ih
    rw [lanes, Nat.succ_mul, Nat.add_comm (n * w) w, ih, sum_block hstep _ _ _ htakeA htakeB, hsplit, add_assoc]

end Sums

end Lanes
end Amind
