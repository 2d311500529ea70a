import CairoTrace.Proofs.Curve.Torsion
import CairoTrace.Proofs.Fraction

/-!
# First coordinates of doublings

The first coordinate of the double of a point is a quotient of polynomials in that of the point.
With numerator and denominator apart, repeated doublings need no division
(`Fraction.IsXOf.doubleX`), and it is quick to see that none of them has one of some first
coordinates (`Fraction.IsXOf.x_ne_of_doublesAvoid`).
-/

namespace CairoTrace

namespace Fraction

/-- The first coordinate of the double of a point from that of the point. -/
def doubleX (a : Fraction) : Fraction :=
  let square := a.denominator * a.denominator
  let difference := a.numerator * a.numerator - square
  let cubic := a.numerator * (a.numerator * a.numerator + square) +
    Point.curveConstant * square * a.denominator
  ⟨difference * difference - .ofNat 8 * Point.curveConstant * a.numerator * square * a.denominator,
    .ofNat 4 * cubic * a.denominator⟩

/-- Whether none of `n` successive doublings has one of some first coordinates. -/
def doublesAvoid (xs : List Felt) : (n : Nat) → Fraction → Bool
  | 0, _ => true
  | n + 1, a => xs.all (fun x => a.numerator != x * a.denominator) && doublesAvoid xs n a.doubleX

/-- A fraction stands for the first coordinate of a point. -/
structure IsXOf (a : Fraction) (P : CurvePoint) : Prop where
  denominator_ne_zero : a.denominator ≠ 0
  numerator_eq : a.numerator = P.point.x * a.denominator

variable {a : Fraction} {P : CurvePoint}

theorem isXOf_x (P : CurvePoint) : (⟨P.point.x, 1⟩ : Fraction).IsXOf P :=
  ⟨one_ne_zero, (mul_one _).symm⟩

theorem IsXOf.doubleX (h : a.IsXOf P) (hP : P ≠ 0) : a.doubleX.IsXOf (2 • P) := by
  obtain ⟨num, den⟩ := a
  obtain ⟨hden, rfl⟩ : den ≠ 0 ∧ num = P.point.x * den := ⟨h.1, h.2⟩
  have honCurve := P.onCurve
  rw [CurvePoint.point_eq_affine hP] at honCurve
  set x := P.point.x
  set y := P.point.y
  have hy : y ≠ 0 := Point.y_ne_zero honCurve
  have hcurve := Point.onCurve_affine_iff.mp honCurve
  have htangent : (Point.affine x y).tangent * (y + y) = x * x + x * x + x * x + 1 :=
    Point.tangent_mul hy
  have hx : (2 • P).point.x = (Point.affine x y).tangent * (Point.affine x y).tangent - x - x := by
    rw [two_nsmul, CurvePoint.add_point, CurvePoint.point_eq_affine hP, Point.add_self_of_y_ne hy]
    rfl
  have hfour : (.ofNat 4 : Felt) = 4 := rfl
  have height : (.ofNat 8 : Felt) = 8 := rfl
  have hdenominator : (Fraction.doubleX ⟨x * den, den⟩).denominator =
      (y + y) * (y + y) * den ^ 4 := by
    simp only [Fraction.doubleX, hfour]
    linear_combination -4 * den ^ 4 * hcurve
  constructor
  · rw [hdenominator]
    have hdouble := Point.double_ne_zero hy
    exact mul_ne_zero (mul_ne_zero hdouble hdouble) (pow_ne_zero 4 hden)
  · rw [hdenominator, hx]
    simp only [Fraction.doubleX, height]
    linear_combination 8 * x * den ^ 4 * hcurve -
      ((Point.affine x y).tangent * (y + y) + (x * x + x * x + x * x + 1)) * den ^ 4 * htangent

/-- None of the first multiples by powers of two has a first coordinate that is avoided. -/
theorem IsXOf.x_ne_of_doublesAvoid {xs : List Felt} {n : Nat} (h : a.IsXOf P) (hP : P ≠ 0)
    (havoid : a.doublesAvoid xs n = true) {k : Nat} (hk : k < n) {x : Felt} (hx : x ∈ xs) :
    (2 ^ k • P).point.x ≠ x := by
  induction n generalizing a P k with
  | zero => exact absurd hk (Nat.not_lt_zero k)
  | succ n ih =>
    rw [doublesAvoid, Bool.and_eq_true, List.all_eq_true] at havoid
    cases k with
    | zero =>
      rintro rfl
      have hne := bne_iff_ne.mp (havoid.1 _ hx)
      rw [pow_zero, one_nsmul] at hne
      exact hne h.numerator_eq
    | succ k =>
      have hdouble : 2 • P ≠ 0 := CurvePoint.two_pow_nsmul_ne_zero hP 1
      rw [pow_succ', mul_nsmul]
      exact ih (h.doubleX hP) hdouble havoid.2 (Nat.lt_of_succ_lt_succ hk)

end Fraction

end CairoTrace
