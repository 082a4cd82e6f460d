import Mathlib.Algebra.Order.Ring.Int

/-!
# Additive checksums

The sum of the words of a message modulo 2^w. Every change of one word changes it, and it
does not depend on whether the words are summed with their sign and cut off at the end.
-/

namespace NextEmu.Lib.SumCheck

variable {w : Nat}

/-- The sum of the words. -/
def total (xs : List (BitVec w)) : BitVec w := xs.foldl (· + ·) 0#w

theorem foldl_total (acc : BitVec w) (xs : List (BitVec w)) :
    xs.foldl (· + ·) acc = acc + total xs := by
  induction xs generalizing acc with
  | nil => exact (BitVec.add_zero acc).symm
  | cons x xs ih =>
    have hcons : total (x :: xs) = x + total xs := by
      rw [total, List.foldl_cons, ih, BitVec.zero_add]
    rw [List.foldl_cons, ih, hcons, BitVec.add_assoc]

theorem total_cons (x : BitVec w) (xs : List (BitVec w)) : total (x :: xs) = x + total xs := by
  rw [total, List.foldl_cons, foldl_total, BitVec.zero_add]

/-- Another word in one place makes another sum. -/
theorem total_set_ne {xs : List (BitVec w)} {k : Nat} (hk : k < xs.length) {x : BitVec w}
    (hne : x ≠ xs[k]) : total (xs.set k x) ≠ total xs := by
  induction xs generalizing k with
  | nil => exact absurd hk (Nat.not_lt_zero k)
  | cons y ys ih =>
    cases k with
    | zero =>
      intro h
      rw [List.set_cons_zero, total_cons, total_cons] at h
      exact hne ((BitVec.add_left_inj _).mp h)
    | succ k =>
      intro h
      rw [List.set_cons_succ, total_cons, total_cons] at h
      exact ih (Nat.lt_of_succ_lt_succ hk) hne ((BitVec.add_right_inj _).mp h)

/-- The sum of the sign-extended words, cut off. -/
theorem total_signExtend {v : Nat} (h : w ≤ v) (xs : List (BitVec w)) :
    (xs.foldl (fun acc (x : BitVec w) => acc + x.signExtend v) 0#v).setWidth w = total xs := by
  suffices hacc : ∀ acc : BitVec v,
      (xs.foldl (fun acc (x : BitVec w) => acc + x.signExtend v) acc).setWidth w =
        acc.setWidth w + total xs by
    rw [hacc, BitVec.setWidth_zero, BitVec.zero_add]
  induction xs with
  | nil => exact fun acc => (BitVec.add_zero _).symm
  | cons x xs ih =>
    intro acc
    have hlow : (x.signExtend v).setWidth w = x := by
      refine BitVec.eq_of_getLsbD_eq fun i hi => ?_
      have hv : i < v := Nat.lt_of_lt_of_le hi h
      simp only [BitVec.getLsbD_setWidth, BitVec.getLsbD_signExtend, hi, hv, decide_true,
        Bool.true_and, if_true]
    rw [List.foldl_cons, ih, BitVec.setWidth_add _ _ h, hlow, total_cons, BitVec.add_assoc]

end NextEmu.Lib.SumCheck
