import CairoTrace.Proofs.Curve.DigitSums
import CairoTrace.Proofs.Curve.Torsion

/-!
# Homogeneous coordinates

Points whose coordinates are multiplied by a third one are added and doubled without a division
(`HomogeneousPoint.Represents.add`, `HomogeneousPoint.Represents.double`). So it is quick to
follow a sum over the digits of a scalar and to see that it avoids the points of its steps
(`HomogeneousPoint.Represents.of_sum?`), or to multiply a point
(`CurvePoint.nsmul_eq_of_isMultiple`, `CurvePoint.mul_generator_eq`).
-/

namespace CairoTrace

/-- The coordinates of a point, both multiplied by `z`. -/
structure HomogeneousPoint where
  x : Felt
  y : Felt
  z : Felt
deriving DecidableEq

namespace HomogeneousPoint

def ofPoint (p : Point) : HomogeneousPoint := ⟨p.x, p.y, 1⟩

/-- The join of two points by a line of slope `n / d`. -/
def join (n d : Felt) (a b : HomogeneousPoint) : HomogeneousPoint :=
  let z := a.z * b.z
  let x := n * n * z - (a.x * b.z + b.x * a.z) * (d * d)
  ⟨x * d, n * (a.x * b.z * (d * d) - x) - a.y * b.z * (d * d * d), d * d * d * z⟩

def add (a b : HomogeneousPoint) : HomogeneousPoint :=
  join (b.y * a.z - a.y * b.z) (b.x * a.z - a.x * b.z) a b

def double (a : HomogeneousPoint) : HomogeneousPoint :=
  join (a.x * a.x + a.x * a.x + a.x * a.x + a.z * a.z) ((a.y + a.y) * a.z) a a

/-- Whether two points have the same first coordinate. -/
def sameX (a b : HomogeneousPoint) : Bool := a.x * b.z == b.x * a.z

def same (a b : HomogeneousPoint) : Bool := a.sameX b && a.y * b.z == b.y * a.z

/-- The sum of `sum` and the multiples of `point` for `n` digits of `m` from digit `i` on, unless
it has the first coordinate of a point that may be added next. -/
def sumFrom? (m : Nat) : (n i : Nat) → (point sum : HomogeneousPoint) → Option HomogeneousPoint
  | 0, _, _, sum => some sum
  | n + 1, i, point, sum =>
    if sum.sameX point then none
    else sumFrom? m n (i + 1) point.double (if m.testBit i then sum.add point else sum)

/-- The sum of `start` and `m` times `point`. -/
def sum? (m : Nat) (point start : HomogeneousPoint) : Option HomogeneousPoint :=
  sumFrom? m (EcOp.steps - 1) 0 point start

/-- Whether `r` is `m` times `q`, by the sum that starts at `p`. -/
def isMultiple (m : Nat) (q r p : Point) : Bool :=
  (sum? m (ofPoint q) (ofPoint p)).any (·.same ((ofPoint p).add (ofPoint r)))

/-- The coordinates are those of a point of the curve. -/
structure Represents (a : HomogeneousPoint) (P : CurvePoint) : Prop where
  ne_zero : P ≠ 0
  z_ne_zero : a.z ≠ 0
  x_eq : a.x = P.point.x * a.z
  y_eq : a.y = P.point.y * a.z

theorem represents_ofPoint {P : CurvePoint} (hP : P ≠ 0) : (ofPoint P.point).Represents P :=
  ⟨hP, one_ne_zero, (mul_one _).symm, (mul_one _).symm⟩

namespace Represents

variable {a b : HomogeneousPoint} {P Q : CurvePoint}

theorem sameX_iff (ha : a.Represents P) (hb : b.Represents Q) :
    a.sameX b = true ↔ P.point.x = Q.point.x := by
  have hz : a.z * b.z ≠ 0 := mul_ne_zero ha.z_ne_zero hb.z_ne_zero
  rw [sameX, beq_iff_eq, ha.x_eq, hb.x_eq, mul_assoc, mul_assoc, mul_comm b.z]
  exact mul_left_inj' hz

theorem eq_of_same (ha : a.Represents P) (hb : b.Represents Q) (h : a.same b = true) : P = Q := by
  obtain ⟨hx, hy⟩ := (Bool.and_eq_true _ _).mp h
  have hz : a.z * b.z ≠ 0 := mul_ne_zero ha.z_ne_zero hb.z_ne_zero
  rw [beq_iff_eq, ha.y_eq, hb.y_eq, mul_assoc, mul_assoc, mul_comm b.z, mul_left_inj' hz] at hy
  apply CurvePoint.ext
  rw [CurvePoint.point_eq_affine ha.ne_zero, CurvePoint.point_eq_affine hb.ne_zero,
    (sameX_iff ha hb).mp hx, hy]

/-- The join by a line whose slope is a fraction. -/
theorem join (ha : a.Represents P) (hb : b.Represents Q) {n d s : Felt} (hd : d ≠ 0)
    (hs : s * d = n) {R : CurvePoint} (hR : R.point = Point.join s P.point Q.point) :
    (join n d a b).Represents R := by
  have hz : a.z * b.z ≠ 0 := mul_ne_zero ha.z_ne_zero hb.z_ne_zero
  refine ⟨CurvePoint.ne_zero_of_point_eq hR, mul_ne_zero (mul_ne_zero (mul_ne_zero hd hd) hd) hz,
    ?_, ?_⟩
  · rw [hR, ← hs]
    simp only [HomogeneousPoint.join, Point.join, Point.x, ha.x_eq, hb.x_eq]
    ring
  · rw [hR, ← hs]
    simp only [HomogeneousPoint.join, Point.join, Point.y, ha.x_eq, ha.y_eq, hb.x_eq]
    ring

theorem add (ha : a.Represents P) (hb : b.Represents Q) (hx : P.point.x ≠ Q.point.x) :
    (a.add b).Represents (P + Q) := by
  have hne : Q.point.x - P.point.x ≠ 0 := sub_ne_zero.mpr hx.symm
  have hd : b.x * a.z - a.x * b.z = (Q.point.x - P.point.x) * (a.z * b.z) := by
    rw [ha.x_eq, hb.x_eq]
    ring
  refine join (s := P.point.chord Q.point) ha hb ?_ ?_ ?_
  · rw [hd]
    exact mul_ne_zero hne (mul_ne_zero ha.z_ne_zero hb.z_ne_zero)
  · rw [hd, ← mul_assoc, Point.chord, div_mul_cancel₀ _ hne, ha.y_eq, hb.y_eq]
    ring
  · rw [CurvePoint.add_point, CurvePoint.point_eq_affine ha.ne_zero,
      CurvePoint.point_eq_affine hb.ne_zero, Point.add_of_x_ne hx]

theorem double (ha : a.Represents P) : a.double.Represents (2 • P) := by
  have honCurve := P.onCurve
  have hpoint := CurvePoint.point_eq_affine ha.ne_zero
  rw [hpoint] at honCurve
  have hy := Point.y_ne_zero honCurve
  have hd : (a.y + a.y) * a.z = (P.point.y + P.point.y) * (a.z * a.z) := by
    rw [ha.y_eq]
    ring
  refine join (s := (Point.affine P.point.x P.point.y).tangent) ha ha ?_ ?_ ?_
  · rw [hd]
    exact mul_ne_zero (Point.double_ne_zero hy) (mul_ne_zero ha.z_ne_zero ha.z_ne_zero)
  · rw [hd, ← mul_assoc, Point.tangent_mul hy, ha.x_eq]
    ring
  · rw [two_nsmul, CurvePoint.add_point, hpoint]
    exact Point.add_self_of_y_ne hy

/-- A sum that is found avoids the points of its steps. -/
theorem of_sumFrom? {m n i : Nat} {c : HomogeneousPoint} (hb : b.Represents (2 ^ i • Q))
    (ha : a.Represents (CurvePoint.sumBefore P Q m i)) (h : sumFrom? m n i b a = some c) :
    (∀ k, i ≤ k → k < i + n →
      (CurvePoint.sumBefore P Q m k).point.x ≠ (2 ^ k • Q).point.x) ∧
      c.Represents (CurvePoint.sumBefore P Q m (i + n)) := by
  induction n generalizing i a b with
  | zero =>
    obtain rfl := Option.some.inj h
    exact ⟨fun k hle hlt => absurd hle (Nat.not_le_of_lt hlt), ha⟩
  | succ n ih =>
    rw [sumFrom?] at h
    split at h
    · cases h
    · next hsame =>
      have hx := mt (sameX_iff ha hb).mpr hsame
      have hdouble : b.double.Represents (2 ^ (i + 1) • Q) := by
        rw [pow_succ, mul_comm, mul_nsmul']
        exact hb.double
      have hsum : (if m.testBit i then a.add b else a).Represents
          (CurvePoint.sumBefore P Q m (i + 1)) := by
        rw [CurvePoint.sumBefore_succ]
        cases m.testBit i with
        | false => rwa [Bool.toNat_false, zero_nsmul, add_zero]
        | true =>
          rw [Bool.toNat_true, one_nsmul]
          exact ha.add hb hx
      obtain ⟨havoids, hc⟩ := ih hdouble hsum h
      rw [Nat.add_right_comm] at hc havoids
      refine ⟨fun k hle hlt => ?_, hc⟩
      rcases Nat.eq_or_lt_of_le hle with rfl | hlt'
      · exact hx
      · exact havoids k hlt' hlt

theorem of_sum? {m : Nat} {c : HomogeneousPoint} (hb : b.Represents Q) (ha : a.Represents P)
    (hm : m < 2 ^ (EcOp.steps - 1)) (h : sum? m b a = some c) :
    (∀ k, k + 1 < EcOp.steps →
      (CurvePoint.sumBefore P Q m k).point.x ≠ (2 ^ k • Q).point.x) ∧
      c.Represents (P + m • Q) := by
  obtain ⟨havoids, hc⟩ := of_sumFrom? (i := 0) (P := P) (Q := Q)
    (by rwa [pow_zero, one_nsmul]) (by rwa [CurvePoint.sumBefore_zero]) h
  rw [zero_add, CurvePoint.sumBefore_of_lt P Q hm] at hc
  exact ⟨fun k hk => havoids k k.zero_le (by omega), hc⟩

end Represents

end HomogeneousPoint

/-- The sum to compare with starts at any point from which the multiples are avoided. -/
theorem CurvePoint.nsmul_eq_of_isMultiple {P Q R : CurvePoint} {m : Nat} (hP : P ≠ 0) (hQ : Q ≠ 0)
    (hR : R ≠ 0) (hx : P.point.x ≠ R.point.x) (hm : m < 2 ^ (EcOp.steps - 1))
    (h : HomogeneousPoint.isMultiple m Q.point R.point P.point = true) : m • Q = R := by
  have hp := HomogeneousPoint.represents_ofPoint hP
  rw [HomogeneousPoint.isMultiple, Option.any_eq_true] at h
  obtain ⟨c, hc, hsame⟩ := h
  obtain ⟨-, hsum⟩ := (HomogeneousPoint.represents_ofPoint hQ).of_sum? hp hm hc
  exact add_left_cancel
    (hsum.eq_of_same (hp.add (HomogeneousPoint.represents_ofPoint hR) hx) hsame)

/-- A multiple of the generator, by the sum that starts at the shift point. -/
theorem CurvePoint.mul_generator_eq {k : Scalar} {R : CurvePoint} (hR : R ≠ 0)
    (hx : shift.point.x ≠ R.point.x)
    (h : HomogeneousPoint.isMultiple k.val generator.point R.point shift.point = true) :
    k * Point.generator = R.point := by
  have hk : k.val < 2 ^ (EcOp.steps - 1) := k.isLt.trans (by decide)
  have hmultiple := nsmul_eq_of_isMultiple shift_ne_zero generator_ne_zero hR hx hk h
  exact (mul_point k generator).trans (congrArg CurvePoint.point hmultiple)

end CairoTrace
