import CairoTrace.Builtin.Ecdsa
import CairoTrace.Proofs.Curve.Torsion

/-!
# Stepwise multiples in the group

Repeated doubling takes a point of the curve to its multiples by powers of two
(`doublingSteps_eq_map`), and the points that are added for a message are those of the generator
(`Ecdsa.generatorPoints_eq_map`). A sum uses the digits of a scalar one after the other
(`CurvePoint.sumBefore_succ`).
-/

namespace CairoTrace

/-! ## Doublings -/

theorem double_point (P : CurvePoint) : P.point.double = (2 • P).point := by
  rw [two_nsmul]
  rfl

/-- The steps of a doubling have the multiples by powers of two and their tangents. -/
theorem doublingSteps_eq_map (n : Nat) (P : CurvePoint) : doublingSteps n P.point =
    (List.range n).map fun k => ⟨(2 ^ k • P).point, (2 ^ k • P).point.tangent⟩ := by
  induction n generalizing P with
  | zero => rfl
  | succ n ih =>
    rw [doublingSteps, double_point, ih, List.range_succ_eq_map, List.map_cons, List.map_map,
      pow_zero, one_nsmul]
    simp only [Function.comp_def, pow_succ, mul_nsmul']

/-- The points of a doubling are those multiples. -/
theorem map_point_doublingSteps (n : Nat) (P : CurvePoint) :
    (doublingSteps n P.point).map (·.point) = (List.range n).map fun k => (2 ^ k • P).point := by
  rw [doublingSteps_eq_map, List.map_map]
  rfl

/-! ## Sums -/

namespace CurvePoint

/-- The sum before the digit `k` of a scalar `m` is used. -/
def sumBefore (P Q : CurvePoint) (m k : Nat) : CurvePoint := P + (m % 2 ^ k) • Q

variable (P Q : CurvePoint) (m : Nat)

@[simp] theorem sumBefore_zero : sumBefore P Q m 0 = P := by
  rw [sumBefore, pow_zero, Nat.mod_one, zero_nsmul, add_zero]

theorem sumBefore_succ (k : Nat) :
    sumBefore P Q m (k + 1) = sumBefore P Q m k + (m.testBit k).toNat • 2 ^ k • Q := by
  have hmod : m % 2 ^ (k + 1) = m % 2 ^ k + (m.testBit k).toNat * 2 ^ k := by
    rw [Nat.mod_pow_succ, Nat.toNat_testBit, mul_comm (2 ^ k)]
  rw [sumBefore, sumBefore, hmod, add_nsmul, mul_nsmul', ← add_assoc]

variable {m} in
theorem sumBefore_of_lt {k : Nat} (hm : m < 2 ^ k) : sumBefore P Q m k = P + m • Q := by
  rw [sumBefore, Nat.mod_eq_of_lt hm]

end CurvePoint

/-! ## The generator and the shift point -/

namespace CurvePoint

/-- The generator of the group. -/
def generator : CurvePoint := ⟨Point.generator, by decide⟩

/-- The point at which the sums of signatures start. -/
def shift : CurvePoint := ⟨Ecdsa.shift, by decide⟩

theorem generator_ne_zero : generator ≠ 0 :=
  ne_zero_of_point_eq rfl

theorem shift_ne_zero : shift ≠ 0 :=
  ne_zero_of_point_eq rfl

end CurvePoint

theorem Ecdsa.generatorPoints_eq_map : generatorPoints =
    (List.range EcOp.steps).map fun k => (2 ^ k • CurvePoint.generator).point := by
  have hgenerator : Point.generator = CurvePoint.generator.point := rfl
  rw [generatorPoints, hgenerator, map_point_doublingSteps]

end CairoTrace
