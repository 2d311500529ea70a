import CairoTrace.Proofs.Curve.Group

/-!
# No point of order two

The cubic `x³ + x + β` has no root in the Stark field (`Point.rightSide_ne_zero`): a root would be a
root of `xᵖ - x`, too, and the remainder of that polynomial has an inverse modulo the cubic. So no
point of the curve has a vertical tangent, and repeated doubling never leads to infinity
(`CurvePoint.two_pow_nsmul_ne_zero`). A point is doubled by the equations of its tangent
(`CurvePoint.tangent_add_self`), and two points with different first coordinates are added by the
equations of their chord (`CurvePoint.chord_add`).
-/

namespace CairoTrace

/-! ## Remainders -/

/-- A remainder of the division by the cubic. -/
structure CubicRemainder where
  constant : Felt
  linear : Felt
  quadratic : Felt
deriving DecidableEq

namespace CubicRemainder

def eval (f : CubicRemainder) (x : Felt) : Felt := f.constant + f.linear * x + f.quadratic * x * x

/-- The remainder of the product, by `x³ = -x - β`. -/
def mul (f g : CubicRemainder) : CubicRemainder :=
  let cubic := f.linear * g.quadratic + f.quadratic * g.linear
  let quartic := f.quadratic * g.quadratic
  { constant := f.constant * g.constant - Point.curveConstant * cubic
    linear := f.constant * g.linear + f.linear * g.constant - cubic - Point.curveConstant * quartic
    quadratic :=
      f.constant * g.quadratic + f.linear * g.linear + f.quadratic * g.constant - quartic }

/-- The remainder of a power, for an exponent below `2 ^ bits`. -/
def powBits (f : CubicRemainder) : (bits : Nat) → (e : Nat) → CubicRemainder
  | 0, _ => ⟨1, 0, 0⟩
  | bits + 1, e =>
    let square := powBits (f.mul f) bits (e / 2)
    if e % 2 = 1 then f.mul square else square

variable {x : Felt}

theorem eval_mul (hx : Point.rightSide x = 0) (f g : CubicRemainder) :
    (f.mul g).eval x = f.eval x * g.eval x := by
  rw [Point.rightSide] at hx
  simp only [mul, eval]
  linear_combination (-f.quadratic * g.quadratic * x - f.linear * g.quadratic -
    f.quadratic * g.linear) * hx

theorem eval_powBits (hx : Point.rightSide x = 0) (f : CubicRemainder) (bits e : Nat)
    (he : e < 2 ^ bits) : (f.powBits bits e).eval x = f.eval x ^ e := by
  induction bits generalizing f e with
  | zero =>
    obtain rfl : e = 0 := by simpa using he
    simp [powBits, eval]
  | succ bits ih =>
    have hhalf : e / 2 < 2 ^ bits := by rw [pow_succ] at he; omega
    have hsquare : ((f.mul f).powBits bits (e / 2)).eval x = f.eval x ^ (2 * (e / 2)) := by
      rw [ih _ _ hhalf, eval_mul hx, ← sq, ← pow_mul]
    rw [powBits]
    split
    · next hodd => rw [eval_mul hx, hsquare, ← pow_succ', show 2 * (e / 2) + 1 = e by omega]
    · next heven => rw [hsquare, show 2 * (e / 2) = e by omega]

/-- The remainder of `xᵖ`. -/
def frobenius : CubicRemainder := powBits ⟨0, 1, 0⟩ 252 starkPrime

/-- The remainder of `xᵖ - x`. -/
def fixedPoints : CubicRemainder := { frobenius with linear := frobenius.linear - 1 }

/-- The inverse of that remainder. -/
def inverse : CubicRemainder where
  constant := .ofNat 0x4849ae2927680d353aa081a91779b35cf46b580e7a531465d38dfb19e9e2113
  linear := .ofNat 0x67d362ff77b726309bd1cf5cb4f3df52d0f76878afb53705a22fc78e12f5c4d
  quadratic := .ofNat 0xd508f6f3a6ffd3254ecea75816bc0c067103c4ee3b399dae811d51a642bb91

theorem fixedPoints_mul_inverse : fixedPoints.mul inverse = ⟨1, 0, 0⟩ := by
  decide +kernel

/-- Every element of the field is its own power of exponent `p`. -/
theorem eval_fixedPoints (hx : Point.rightSide x = 0) : fixedPoints.eval x = 0 := by
  have hbase : (⟨0, 1, 0⟩ : CubicRemainder).eval x = x := by simp [eval]
  have hpow := FiniteField.pow_card x
  rw [Felt.card_felt] at hpow
  have hfrobenius := eval_powBits hx ⟨0, 1, 0⟩ 252 starkPrime (by decide)
  rw [hbase, hpow, ← frobenius, eval] at hfrobenius
  simp only [fixedPoints, eval]
  linear_combination hfrobenius

end CubicRemainder

/-! ## Points -/

/-- The cubic has no root. -/
theorem Point.rightSide_ne_zero (x : Felt) : rightSide x ≠ 0 := by
  intro hx
  have hone := CubicRemainder.eval_mul hx CubicRemainder.fixedPoints CubicRemainder.inverse
  rw [CubicRemainder.eval_fixedPoints hx, zero_mul, CubicRemainder.fixedPoints_mul_inverse] at hone
  simp [CubicRemainder.eval] at hone

/-- No point of the curve has a vertical tangent. -/
theorem Point.y_ne_zero {x y : Felt} (h : (affine x y).onCurve = true) : y ≠ 0 := by
  rintro rfl
  rw [onCurve_affine_iff, mul_zero] at h
  exact rightSide_ne_zero x h.symm

namespace CurvePoint

theorem add_self_ne_zero {P : CurvePoint} (hP : P ≠ 0) : P + P ≠ 0 := by
  intro hzero
  have hpoint := congrArg CurvePoint.point hzero
  rw [add_point, zero_point] at hpoint
  cases hcase : P.point with
  | infinity => exact hP (CurvePoint.ext hcase)
  | affine x y =>
    have honCurve := P.onCurve
    rw [hcase] at honCurve hpoint
    rw [Point.add_self_of_y_ne (Point.y_ne_zero honCurve)] at hpoint
    cases hpoint

/-- Repeated doubling never leads to infinity. -/
theorem two_pow_nsmul_ne_zero {P : CurvePoint} (hP : P ≠ 0) (k : Nat) : 2 ^ k • P ≠ 0 := by
  induction k with
  | zero => rwa [pow_zero, one_nsmul]
  | succ k ih =>
    rw [pow_succ, mul_two, add_nsmul]
    exact add_self_ne_zero ih

theorem point_eq_affine {P : CurvePoint} (hP : P ≠ 0) :
    P.point = .affine P.point.x P.point.y := by
  cases hcase : P.point with
  | infinity => exact absurd (CurvePoint.ext hcase) hP
  | affine x y => rfl

theorem ne_zero_of_point_eq {P : CurvePoint} {x y : Felt} (hP : P.point = .affine x y) : P ≠ 0 := by
  rintro rfl
  cases hP

/-- The slope of a tangent, and the equations for the double of its point. -/
theorem tangent_add_self {P : CurvePoint} (hP : P ≠ 0) :
    P.point.x * P.point.x * 3 + 1 = (P.point.y + P.point.y) * P.point.tangent ∧
      P.point.tangent * P.point.tangent = P.point.x + P.point.x + (P + P).point.x ∧
      P.point.y + (P + P).point.y = P.point.tangent * (P.point.x - (P + P).point.x) := by
  have hpoint := point_eq_affine hP
  have honCurve := P.onCurve
  rw [hpoint] at honCurve
  have hslope : P.point.x * P.point.x * 3 + 1 = (P.point.y + P.point.y) * P.point.tangent := by
    have htangent := Point.tangent_mul (x := P.point.x) (Point.y_ne_zero honCurve)
    rw [← hpoint] at htangent
    linear_combination -htangent
  have hdouble : P.point + P.point = .affine (P + P).point.x (P + P).point.y :=
    point_eq_affine (add_self_ne_zero hP)
  rw [hpoint, Point.add_self_eq_affine_iff_of_tangent honCurve hslope] at hdouble
  exact ⟨hslope, hdouble⟩

/-- The inverse and the slope of a chord, and the equations for the sum of its points. -/
theorem chord_add {P Q : CurvePoint} {inv slope : Felt} (hP : P ≠ 0) (hQ : Q ≠ 0)
    (hx : P.point.x ≠ Q.point.x) (hinv : inv = (P.point.x - Q.point.x)⁻¹)
    (hslope : slope = (P.point.y - Q.point.y) * (P.point.x - Q.point.x)⁻¹) :
    inv * (P.point.x - Q.point.x) = 1 ∧
      P.point.y - Q.point.y = slope * (P.point.x - Q.point.x) ∧
      slope * slope = P.point.x + Q.point.x + (P + Q).point.x ∧
      P.point.y + (P + Q).point.y = slope * (P.point.x - (P + Q).point.x) := by
  have hone : inv * (P.point.x - Q.point.x) = 1 := by
    rw [hinv, inv_mul_cancel₀ (sub_ne_zero.mpr hx)]
  have hchord : P.point.y - Q.point.y = slope * (P.point.x - Q.point.x) := by
    rw [hslope, ← hinv, mul_assoc, hone, mul_one]
  have hsum : P + Q ≠ 0 := by
    intro hzero
    rw [eq_neg_of_add_eq_zero_left hzero, neg_point, Point.x_neg] at hx
    exact hx rfl
  have hpoint : P.point + Q.point = .affine (P + Q).point.x (P + Q).point.y :=
    point_eq_affine hsum
  rw [point_eq_affine hP, point_eq_affine hQ, Point.add_eq_affine_iff_of_chord hone hchord]
    at hpoint
  exact ⟨hone, hchord, hpoint⟩

end CurvePoint

end CairoTrace
