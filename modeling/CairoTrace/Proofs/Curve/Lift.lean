import CairoTrace.Proofs.Curve.Torsion

/-!
# Points with a given first coordinate

The loop for square roots lowers the order of a power of its argument until nothing is left of it
(`Felt.sqrtLoop_mul_self`), so that an element with a root has one that is found
(`Felt.sqrt?_mul_self`), and what is found is a root (`Felt.mul_self_of_sqrt?`). The points with a
first coordinate are then a point of the curve and its negative (`Point.exists_of_liftX?`,
`Point.exists_liftX?`).
-/

namespace CairoTrace

/-! ## Square roots -/

namespace Felt

/-- The generator of the multiplicative group is not a square. -/
theorem generator_pow_half : generator ^ ((starkPrime - 1) / 2) = -1 := by
  decide +kernel

theorem two_pow_mul_oddOrder : 2 ^ (twoAdicity - 1) * oddOrder = (starkPrime - 1) / 2 := by
  decide

variable {a : Felt}

/-- What is left of the power has order one when the twist has order two. -/
theorem sqrtLoop_mul_self {k : Nat} {twist power root : Felt} (htwist : twist ^ 2 ^ k = -1)
    (hpower : power ^ 2 ^ k = 1) (hroot : root * root = a * power) :
    sqrtLoop k twist power root * sqrtLoop k twist power root = a := by
  induction k generalizing twist power root with
  | zero =>
    rw [pow_zero, pow_one] at hpower
    rw [sqrtLoop, hroot, hpower, mul_one]
  | succ k ih =>
    have htwist' : (twist * twist) ^ 2 ^ k = -1 := by
      rw [← sq, ← pow_mul, ← pow_succ', htwist]
    rw [sqrtLoop, Nat.one_shiftLeft]
    split
    · next hone => exact ih htwist' hone hroot
    · next hne =>
      have hneg : power ^ 2 ^ k = -1 := by
        rw [pow_succ, mul_two, pow_add, mul_self_eq_one_iff] at hpower
        exact hpower.resolve_left hne
      apply ih htwist'
      · rw [mul_pow, hneg, htwist', neg_mul_neg, one_mul]
      · linear_combination twist * twist * hroot

theorem isSquare_iff : a.isSquare = true ↔ a = 0 ∨ a ^ ((starkPrime - 1) / 2) = 1 := by
  rw [Residue.isSquare, Bool.or_eq_true, Residue.isZero_iff, beq_iff_eq]

/-- What is found is a root. -/
theorem mul_self_of_sqrt? {root : Felt} (h : sqrt? a = some root) : root * root = a := by
  rw [sqrt?] at h
  split at h
  · next hzero =>
    obtain rfl := Option.some.inj h
    rw [(Residue.isZero_iff a).mp hzero, mul_zero]
  · next hnonzero =>
    split at h
    · next hsquare =>
      obtain rfl := Option.some.inj h
      have ha : a ≠ 0 := mt (Residue.isZero_iff a).mpr hnonzero
      have hone : a ^ ((starkPrime - 1) / 2) = 1 := (isSquare_iff.mp hsquare).resolve_left ha
      apply sqrtLoop_mul_self
      · rw [← pow_mul, mul_comm, two_pow_mul_oddOrder, generator_pow_half]
      · rw [← pow_mul, mul_comm, two_pow_mul_oddOrder, hone]
      · have hhalf : (oddOrder + 1) / 2 + (oddOrder + 1) / 2 = oddOrder + 1 := by decide
        rw [← pow_add, hhalf, pow_succ']
    · cases h

/-- A root is found of every square. -/
theorem sqrt?_mul_self (root : Felt) : ∃ found, sqrt? (root * root) = some found := by
  rw [sqrt?]
  split
  · exact ⟨_, rfl⟩
  · next hnonzero =>
    have hroot : root ≠ 0 := by
      rintro rfl
      exact hnonzero ((Residue.isZero_iff _).mpr (mul_zero 0))
    have hone : (root * root) ^ ((starkPrime - 1) / 2) = 1 := by
      have hhalf : 2 * ((starkPrime - 1) / 2) = starkPrime - 1 := by decide
      have hfermat := FiniteField.pow_card_sub_one_eq_one root hroot
      rw [card_felt] at hfermat
      rw [← sq, ← pow_mul, hhalf, hfermat]
    rw [if_pos (isSquare_iff.mpr (Or.inr hone))]
    exact ⟨_, rfl⟩

end Felt

/-! ## Points -/

namespace Point

variable {x : Felt}

/-- Both points with a first coordinate are on the curve. -/
theorem exists_of_liftX? {low high : Point} (h : liftX? x = some (low, high)) :
    ∃ Q : CurvePoint, Q ≠ 0 ∧ x = Q.point.x ∧ low = Q.point ∧ high = (-Q).point := by
  obtain ⟨y, hy, hpair⟩ := Option.map_eq_some_iff.mp h
  have hroot : y * y = rightSide x := Felt.mul_self_of_sqrt? hy
  have honCurve : (affine x y).onCurve = true := onCurve_affine_iff.mpr hroot
  let P : CurvePoint := ⟨affine x y, honCurve⟩
  have hP : P ≠ 0 := CurvePoint.ne_zero_of_point_eq rfl
  split at hpair
  · obtain ⟨rfl, rfl⟩ := Prod.mk.inj hpair
    exact ⟨P, hP, rfl, rfl, rfl⟩
  · obtain ⟨rfl, rfl⟩ := Prod.mk.inj hpair
    exact ⟨-P, neg_ne_zero.mpr hP, rfl, rfl, congrArg CurvePoint.point (neg_neg P).symm⟩

/-- A point is one of those with its first coordinate. -/
theorem exists_liftX? {P : CurvePoint} (hP : P ≠ 0) :
    ∃ low high, liftX? P.point.x = some (low, high) ∧ (low = P.point ∨ high = P.point) := by
  have honCurve := P.onCurve
  rw [CurvePoint.point_eq_affine hP, onCurve_affine_iff] at honCurve
  obtain ⟨y, hy⟩ := Felt.sqrt?_mul_self P.point.y
  have hroot : y = P.point.y ∨ y = -P.point.y :=
    mul_self_eq_mul_self_iff.mp (Felt.mul_self_of_sqrt? hy)
  have hpoint : affine P.point.x y = P.point ∨ affine P.point.x (-y) = P.point := by
    rw [CurvePoint.point_eq_affine hP]
    rcases hroot with hroot | hroot
    · exact Or.inl (congrArg (affine _) hroot)
    · exact Or.inr (congrArg (affine _) (by rw [hroot, neg_neg]))
  have hright : rightSide P.point.x = P.point.y * P.point.y := honCurve.symm
  rw [liftX?, hright, hy, Option.map_some]
  split
  · exact ⟨_, _, rfl, hpoint⟩
  · exact ⟨_, _, rfl, hpoint.symm⟩

end Point

end CairoTrace
