import CairoTrace.Proofs.Curve.Steps
import Mathlib.Algebra.BigOperators.Group.Finset.Basic

/-!
# Sums over the digits of a scalar

Points are added to a first one if the digits of a scalar that they belong to are set
(`CurvePoint.digitSum`). With the multiples of a point by powers of two this adds the multiple by
the first digits (`CurvePoint.sum_testBit_nsmul`), and so does multiplication from the highest digit
on (`CurvePoint.mul_point`).
-/

namespace CairoTrace

namespace CurvePoint

/-- The sum of `P` and those of the first `k` points of `q` whose digit is set in `m`. -/
def digitSum (P : CurvePoint) (q : Nat → CurvePoint) (m k : Nat) : CurvePoint :=
  P + ∑ j ∈ Finset.range k, (m.testBit j).toNat • q j

variable {P Q : CurvePoint} {q : Nat → CurvePoint} {m : Nat}

@[simp] theorem digitSum_zero : digitSum P q m 0 = P := by
  rw [digitSum, Finset.sum_range_zero, add_zero]

theorem digitSum_succ (k : Nat) :
    digitSum P q m (k + 1) = digitSum P q m k + (m.testBit k).toNat • q k := by
  rw [digitSum, digitSum, Finset.sum_range_succ, add_assoc]

theorem digitSum_succ_of_testBit {k : Nat} (h : m.testBit k = true) :
    digitSum P q m (k + 1) = digitSum P q m k + q k := by
  rw [digitSum_succ, h, Bool.toNat_true, one_nsmul]

theorem digitSum_succ_of_not_testBit {k : Nat} (h : m.testBit k = false) :
    digitSum P q m (k + 1) = digitSum P q m k := by
  rw [digitSum_succ, h, Bool.toNat_false, zero_nsmul, add_zero]

/-- The digits after those of a scalar add nothing. -/
theorem digitSum_succ_of_lt {k : Nat} (hm : m < 2 ^ k) :
    digitSum P q m (k + 1) = digitSum P q m k :=
  digitSum_succ_of_not_testBit (Nat.testBit_lt_two_pow hm)

/-- A sum that does not have the first coordinates of the points that are added to it does not
become infinite. -/
theorem digitSum_ne_zero (hP : P ≠ 0) {k : Nat}
    (h : ∀ j < k, m.testBit j = true → (digitSum P q m j).point.x ≠ (q j).point.x) :
    digitSum P q m k ≠ 0 := by
  induction k with
  | zero => rwa [digitSum_zero]
  | succ k ih =>
    have hk := ih fun j hj => h j (Nat.lt_succ_of_lt hj)
    cases hbit : m.testBit k with
    | false => rwa [digitSum_succ_of_not_testBit hbit]
    | true =>
      rw [digitSum_succ_of_testBit hbit]
      intro hzero
      apply h k k.lt_succ_self hbit
      rw [eq_neg_of_add_eq_zero_left hzero, neg_point]
      exact Point.x_neg _

/-- The multiples by powers of two add up to the multiple by the first digits. -/
theorem sum_testBit_nsmul (Q : CurvePoint) (m k : Nat) :
    ∑ j ∈ Finset.range k, (m.testBit j).toNat • 2 ^ j • Q = (m % 2 ^ k) • Q := by
  induction k with
  | zero => rw [Finset.sum_range_zero, pow_zero, Nat.mod_one, zero_nsmul]
  | succ k ih =>
    rw [Finset.sum_range_succ, ih, Nat.mod_pow_succ, Nat.toNat_testBit, mul_comm (2 ^ k), add_nsmul,
      mul_nsmul']

theorem sumBefore_eq_digitSum (k : Nat) :
    sumBefore P Q m k = digitSum P (fun j => 2 ^ j • Q) m k := by
  rw [sumBefore, digitSum, sum_testBit_nsmul]

/-! ## Multiplication -/

theorem mulBits_point (P : CurvePoint) {bits k : Nat} (hk : k < 2 ^ bits) :
    P.point.mulBits bits k = (k • P).point := by
  induction bits generalizing k with
  | zero =>
    obtain rfl : k = 0 := Nat.lt_one_iff.mp hk
    rfl
  | succ bits ih =>
    have hhalf : k / 2 < 2 ^ bits := by
      rw [pow_succ] at hk
      omega
    have hsplit : k • P = 2 • (k / 2) • P + (k % 2) • P := by
      rw [← mul_nsmul', ← add_nsmul, Nat.div_add_mod]
    rw [Point.mulBits, ih hhalf, double_point, hsplit]
    rcases Nat.mod_two_eq_zero_or_one k with hmod | hmod
    · rw [hmod, if_neg zero_ne_one, zero_nsmul, add_zero]
    · rw [hmod, if_pos rfl, one_nsmul]
      rfl

/-- Multiplication by a scalar is that of the group. -/
theorem mul_point (k : Scalar) (P : CurvePoint) : k * P.point = (k.val • P).point := by
  have hlt : k.val < 2 ^ bitLength k.val := by
    unfold bitLength
    split
    · next hzero => rw [hzero, pow_zero]; exact Nat.one_pos
    · exact Nat.lt_log2_self
  exact mulBits_point P hlt

end CurvePoint

end CairoTrace
