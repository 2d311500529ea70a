import CairoTrace.Curve.Point
import CairoTrace.Proofs.StarkField
import Mathlib.AlgebraicGeometry.EllipticCurve.Affine.Point

/-!
# The group of the Stark curve

The curve is a Weierstrass curve without singular points (`discriminant_ne_zero`), and chords and
tangents add its points as they do there (`ofWeierstrass_add`). So the points of the curve are
closed under addition and are a commutative group (`CurvePoint`), in which multiples of a point are
sums of copies of it.
-/

namespace CairoTrace

open WeierstrassCurve

/-! ## The Weierstrass curve -/

/-- The Stark curve in Weierstrass form. -/
def weierstrass : Affine Felt := ⟨0, 0, 0, 1, Point.curveConstant⟩

theorem discriminant_ne_zero : weierstrass.Δ ≠ 0 := by
  decide

namespace Point

theorem onCurve_affine_iff {x y : Felt} :
    (affine x y).onCurve = true ↔ y * y = x * x * x + x + curveConstant := by
  rw [onCurve, rightSide, beq_iff_eq]

theorem nonsingular_iff {x y : Felt} :
    weierstrass.Nonsingular x y ↔ (affine x y).onCurve = true := by
  rw [← weierstrass.equation_iff_nonsingular_of_Δ_ne_zero discriminant_ne_zero,
    Affine.equation_iff, onCurve_affine_iff, weierstrass]
  ring_nf

/-- A point of the Weierstrass curve by its coordinates. -/
def ofWeierstrass : weierstrass.Point → Point
  | .zero => infinity
  | .some x y _ => affine x y

theorem onCurve_ofWeierstrass (P : weierstrass.Point) : (ofWeierstrass P).onCurve = true := by
  cases P with
  | zero => rfl
  | some x y h => exact nonsingular_iff.mp h

theorem exists_ofWeierstrass {p : Point} (h : p.onCurve = true) : ∃ P, ofWeierstrass P = p := by
  cases p with
  | infinity => exact ⟨0, rfl⟩
  | affine x y => exact ⟨.some x y (nonsingular_iff.mpr h), rfl⟩

@[simp] theorem x_neg (p : Point) : (-p).x = p.x := by
  cases p <;> rfl

/-! ## Sums -/

theorem infinity_add (p : Point) : infinity + p = p := by
  cases p <;> rfl

theorem add_infinity (p : Point) : p + infinity = p := by
  cases p <;> rfl

variable {x₁ y₁ x₂ y₂ x y : Felt}

/-- Two points with different first coordinates are added by their chord. -/
theorem add_of_x_ne (hx : x₁ ≠ x₂) : affine x₁ y₁ + affine x₂ y₂ =
    join (chord (affine x₁ y₁) (affine x₂ y₂)) (affine x₁ y₁) (affine x₂ y₂) :=
  if_pos hx

/-- A point is added to its negative. -/
theorem add_of_y_ne (hy : y₁ ≠ y₂) : affine x y₁ + affine x y₂ = infinity :=
  (if_neg (not_not.mpr rfl)).trans (if_pos (Or.inl hy))

theorem add_self_of_y_eq : affine x 0 + affine x 0 = infinity :=
  (if_neg (not_not.mpr rfl)).trans (if_pos (Or.inr rfl))

/-- A point is added to itself by its tangent. -/
theorem add_self_of_y_ne (hy : y ≠ 0) : affine x y + affine x y =
    join (affine x y).tangent (affine x y) (affine x y) := by
  refine (if_neg (not_not.mpr rfl)).trans (if_neg ?_)
  rintro (hne | hvertical)
  · exact hne rfl
  · exact hy ((Residue.isZero_iff y).mp hvertical)

/-- The formulas of the Weierstrass curve for a line are those of the join. -/
theorem join_eq (s : Felt) : affine (weierstrass.addX x₁ x₂ s) (weierstrass.addY x₁ x₂ y₁ s) =
    join s (affine x₁ y₁) (affine x₂ y₂) := by
  rw [join, affine.injEq]
  simp only [Affine.addY, Affine.negAddY, Affine.addX, Affine.negY, weierstrass, Point.x, Point.y]
  constructor
  · ring
  · ring

theorem slope_of_x_ne (hx : x₁ ≠ x₂) :
    weierstrass.slope x₁ x₂ y₁ y₂ = chord (affine x₁ y₁) (affine x₂ y₂) := by
  rw [Affine.slope_of_X_ne hx, chord, ← neg_sub, ← neg_sub x₂, neg_div_neg_eq]
  rfl

theorem negY_eq : weierstrass.negY x y = -y := by
  simp only [Affine.negY, weierstrass]
  ring

/-- A number other than zero is not its own negative. -/
theorem ne_neg_of_ne_zero (hy : y ≠ 0) : y ≠ -y := by
  intro h
  have htwo : (2 : Felt) ≠ 0 := by decide
  have hdouble : 2 * y = 0 := by linear_combination h
  exact hy ((mul_eq_zero.mp hdouble).resolve_left htwo)

theorem double_ne_zero (hy : y ≠ 0) : y + y ≠ 0 := by
  rw [← sub_neg_eq_add]
  exact sub_ne_zero.mpr (ne_neg_of_ne_zero hy)

theorem tangent_mul (hy : y ≠ 0) : (affine x y).tangent * (y + y) = x * x + x * x + x * x + 1 :=
  ((div_eq_iff (double_ne_zero hy)).mp rfl).symm

theorem slope_self (hy : y ≠ 0) : weierstrass.slope x x y y = (affine x y).tangent := by
  rw [Affine.slope_of_Y_ne rfl (by rw [negY_eq]; exact ne_neg_of_ne_zero hy), negY_eq, tangent]
  congr 1
  · simp only [weierstrass, Point.x]
    ring
  · exact sub_neg_eq_add y y

/-- Points are added as on the Weierstrass curve. -/
theorem ofWeierstrass_add (P Q : weierstrass.Point) :
    ofWeierstrass (P + Q) = ofWeierstrass P + ofWeierstrass Q := by
  cases P with
  | zero => exact (congrArg ofWeierstrass (zero_add Q)).trans (infinity_add _).symm
  | some x₁ y₁ h₁ =>
    cases Q with
    | zero => exact (congrArg ofWeierstrass (add_zero _)).trans (add_infinity _).symm
    | some x₂ y₂ h₂ =>
      by_cases hx : x₁ = x₂
      · subst hx
        rcases Affine.Y_eq_of_X_eq h₁.1 h₂.1 rfl with rfl | hneg
        · by_cases hy : y₁ = 0
          · subst hy
            rw [Affine.Point.add_self_of_Y_eq (by rw [negY_eq, neg_zero])]
            exact add_self_of_y_eq.symm
          · have hne : y₁ ≠ weierstrass.negY x₁ y₁ := negY_eq ▸ ne_neg_of_ne_zero hy
            rw [Affine.Point.add_self_of_Y_ne hne]
            exact (join_eq _).trans ((slope_self hy ▸ add_self_of_y_ne hy).symm)
        · rw [Affine.Point.add_of_Y_eq rfl hneg]
          rw [negY_eq] at hneg
          by_cases hy : y₁ = y₂
          · subst hy
            obtain rfl : y₁ = 0 := by_contra fun hne => ne_neg_of_ne_zero hne hneg
            exact add_self_of_y_eq.symm
          · exact (add_of_y_ne hy).symm
      · rw [Affine.Point.add_of_X_ne hx]
        exact (join_eq _).trans ((slope_of_x_ne hx ▸ add_of_x_ne hx).symm)

theorem ofWeierstrass_neg (P : weierstrass.Point) : ofWeierstrass (-P) = -ofWeierstrass P := by
  cases P with
  | zero => rfl
  | some x y h => exact congrArg (affine x) negY_eq

theorem onCurve_add {p q : Point} (hp : p.onCurve = true) (hq : q.onCurve = true) :
    (p + q).onCurve = true := by
  obtain ⟨P, rfl⟩ := exists_ofWeierstrass hp
  obtain ⟨Q, rfl⟩ := exists_ofWeierstrass hq
  rw [← ofWeierstrass_add]
  exact onCurve_ofWeierstrass _

theorem onCurve_neg {p : Point} (hp : p.onCurve = true) : (-p).onCurve = true := by
  obtain ⟨P, rfl⟩ := exists_ofWeierstrass hp
  rw [← ofWeierstrass_neg]
  exact onCurve_ofWeierstrass _

/-! ## Equations between coordinates -/

variable {x₃ y₃ s : Felt}

theorem join_eq_affine_iff : join s (affine x₁ y₁) (affine x₂ y₂) = affine x₃ y₃ ↔
    s * s = x₁ + x₂ + x₃ ∧ y₁ + y₃ = s * (x₁ - x₃) := by
  rw [join, affine.injEq]
  constructor
  · rintro ⟨rfl, rfl⟩
    simp only [Point.x, Point.y]
    constructor
    · ring
    · ring
  · rintro ⟨hx, hy⟩
    obtain rfl : x₃ = s * s - x₁ - x₂ := by linear_combination -hx
    refine ⟨rfl, ?_⟩
    change s * (x₁ - (s * s - x₁ - x₂)) - y₁ = y₃
    linear_combination -hy

theorem chord_eq_iff (hne : x₁ ≠ x₂) :
    chord (affine x₁ y₁) (affine x₂ y₂) = s ↔ y₁ - y₂ = s * (x₁ - x₂) := by
  rw [chord, ← neg_sub, ← neg_sub (affine x₁ y₁).x, neg_div_neg_eq]
  exact div_eq_iff (sub_ne_zero.mpr hne)

/-- With its slope, the equations of a chord say which point is the sum of two others. -/
theorem add_eq_affine_iff_of_chord {inv : Felt} (hinv : inv * (x₁ - x₂) = 1)
    (hs : y₁ - y₂ = s * (x₁ - x₂)) : affine x₁ y₁ + affine x₂ y₂ = affine x₃ y₃ ↔
      s * s = x₁ + x₂ + x₃ ∧ y₁ + y₃ = s * (x₁ - x₃) := by
  have hne : x₁ ≠ x₂ := sub_ne_zero.mp (right_ne_zero_of_mul_eq_one hinv)
  rw [add_of_x_ne hne, (chord_eq_iff hne).mpr hs, join_eq_affine_iff]

/-- With its slope, the equations of a tangent say which point is the double of a point of the
curve. The curve has no singular points, so that a vertical tangent has no slope. -/
theorem add_self_eq_affine_iff_of_tangent (h : (affine x y).onCurve = true)
    (hs : x * x * 3 + 1 = (y + y) * s) : affine x y + affine x y = affine x₃ y₃ ↔
      s * s = x + x + x₃ ∧ y + y₃ = s * (x - x₃) := by
  have hne : y ≠ 0 := by
    rintro rfl
    obtain ⟨-, hx' | hy'⟩ := (weierstrass.nonsingular_iff x 0).mp (nonsingular_iff.mpr h)
    · apply hx'
      simp only [weierstrass]
      linear_combination -hs
    · exact hy' (by simp [weierstrass])
  have htangent : (affine x y).tangent = s := by
    apply mul_right_cancel₀ (double_ne_zero hne)
    linear_combination tangent_mul (x := x) hne + hs
  rw [add_self_of_y_ne hne, htangent, join_eq_affine_iff]

end Point

/-! ## The group -/

/-- A point of the Stark curve. -/
@[ext]
structure CurvePoint where
  point : Point
  onCurve : point.onCurve = true

namespace CurvePoint

instance : Add CurvePoint := ⟨fun P Q => ⟨P.point + Q.point, Point.onCurve_add P.onCurve Q.onCurve⟩⟩
instance : Zero CurvePoint := ⟨⟨.infinity, rfl⟩⟩
instance : Neg CurvePoint := ⟨fun P => ⟨-P.point, Point.onCurve_neg P.onCurve⟩⟩

@[simp] theorem add_point (P Q : CurvePoint) : (P + Q).point = P.point + Q.point := rfl
@[simp] theorem zero_point : (0 : CurvePoint).point = .infinity := rfl
@[simp] theorem neg_point (P : CurvePoint) : (-P).point = -P.point := rfl

/-- Equations between points of the curve are equations on the Weierstrass curve. -/
theorem exists_point_eq (P : CurvePoint) : ∃ W, P.point = Point.ofWeierstrass W := by
  obtain ⟨W, hW⟩ := Point.exists_ofWeierstrass P.onCurve
  exact ⟨W, hW.symm⟩

/-- Multiples are sums of copies of a point. -/
instance : AddCommGroup CurvePoint where
  add_assoc P Q R := by
    obtain ⟨p, hp⟩ := P.exists_point_eq
    obtain ⟨q, hq⟩ := Q.exists_point_eq
    obtain ⟨r, hr⟩ := R.exists_point_eq
    ext1
    simp only [add_point, hp, hq, hr, ← Point.ofWeierstrass_add, add_assoc]
  zero_add P := CurvePoint.ext (Point.infinity_add P.point)
  add_zero P := CurvePoint.ext (Point.add_infinity P.point)
  neg_add_cancel P := by
    obtain ⟨p, hp⟩ := P.exists_point_eq
    ext1
    rw [add_point, neg_point, hp, ← Point.ofWeierstrass_neg, ← Point.ofWeierstrass_add,
      neg_add_cancel]
    rfl
  add_comm P Q := by
    obtain ⟨p, hp⟩ := P.exists_point_eq
    obtain ⟨q, hq⟩ := Q.exists_point_eq
    ext1
    simp only [add_point, hp, hq, ← Point.ofWeierstrass_add, add_comm]
  nsmul := nsmulRec
  zsmul := zsmulRec

end CurvePoint

end CairoTrace
