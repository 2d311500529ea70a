import CairoTrace.Proofs.Curve.DigitSums
import CairoTrace.Proofs.Curve.Doublings
import CairoTrace.Proofs.Soundness.PointSum

/-!
# Cells that follow the group law

Cells that hold the multiples of a point by powers of two are its doublings
(`DoubledPoint.Follows.doubles`). Cells that hold the sums of a point and others by the digits of a
scalar are a sum (`PointSum.Accumulates.extracts`, `PointSum.Accumulates.adds`), unless the sum
reaches the first coordinate of a point that is added to it (`CurvePoint.AvoidsDigits`). This is so
in particular of the multiples of one point (`PointSum.Follows`). The digits of a scalar below the
modulus of the field are unpacked (`PointSum.unpacks_of_lt`).
-/

namespace CairoTrace

open SubsetSum (steps)

namespace CurvePoint

variable {P Q : CurvePoint} {m : Nat}

/-- No sum has the first coordinate of the point that may be added next. -/
def Avoids (P Q : CurvePoint) (m : Nat) : Prop :=
  ∀ k, k + 1 < steps → (sumBefore P Q m k).point.x ≠ (2 ^ k • Q).point.x

/-- Of the points of the steps, those whose digit is set do not have the first coordinate of the sum
that they are added to. -/
def AvoidsDigits (P : CurvePoint) (q : Nat → CurvePoint) (m : Nat) : Prop :=
  ∀ k, k + 1 < steps → m.testBit k = true → (digitSum P q m k).point.x ≠ (q k).point.x

theorem AvoidsDigits.digitSum_ne_zero {q : Nat → CurvePoint} (h : AvoidsDigits P q m) (hP : P ≠ 0)
    {k : Nat} (hk : k < steps) : digitSum P q m k ≠ 0 :=
  CurvePoint.digitSum_ne_zero hP fun j hj => h j (Nat.lt_of_le_of_lt hj hk)

/-- A sum that adds a point on the first step only. -/
theorem avoidsDigits_one {q : Nat → CurvePoint} (h : P.point.x ≠ (q 0).point.x) :
    AvoidsDigits P q 1 := by
  intro k _ hbit
  obtain rfl : k = 0 := Nat.testBit_one_eq_true_iff_self_eq_zero.mp hbit
  rwa [digitSum_zero]

theorem Avoids.avoidsDigits (h : Avoids P Q m) : AvoidsDigits P (fun k => 2 ^ k • Q) m := by
  intro k hk _
  rw [← sumBefore_eq_digitSum]
  exact h k hk

theorem Avoids.add_nsmul_ne_zero (h : Avoids P Q m) (hP : P ≠ 0) (hm : m < 2 ^ (steps - 1)) :
    P + m • Q ≠ 0 := by
  rw [← sumBefore_of_lt P Q hm, sumBefore_eq_digitSum]
  exact h.avoidsDigits.digitSum_ne_zero hP (by decide)

/-- A sum that adds a point on the first step only has two values. -/
theorem avoids_one (hQ : Q ≠ 0)
    (h : Fraction.doublesAvoid [P.point.x, (P + Q).point.x] steps ⟨Q.point.x, 1⟩ = true) :
    Avoids P Q 1 := by
  intro k hk
  refine ((Fraction.isXOf_x Q).x_ne_of_doublesAvoid hQ h (Nat.lt_of_succ_lt hk) ?_).symm
  cases k with
  | zero => simp
  | succ k =>
    rw [sumBefore_of_lt P Q (Nat.one_lt_two_pow (Nat.succ_ne_zero k)), one_nsmul]
    simp

theorem neg_shift_avoids_generator : Avoids (-shift) generator 1 :=
  avoids_one generator_ne_zero (by decide +kernel)

end CurvePoint

/-! ## Doublings -/

/-- The cells of the doublings of a point. -/
def DoubledPoint.multiples (Q : CurvePoint) : DoubledPoint where
  x k := (2 ^ k • Q).point.x
  y k := (2 ^ k • Q).point.y
  slope k := (2 ^ k • Q).point.tangent

/-- The cells hold the multiples of a point by powers of two and their tangents. -/
structure DoubledPoint.Follows (d : DoubledPoint) (Q : CurvePoint) : Prop where
  x : ∀ k < steps, d.x k = (multiples Q).x k
  y : ∀ k < steps, d.y k = (multiples Q).y k
  slope : ∀ k, k + 1 < steps → d.slope k = (multiples Q).slope k

theorem Doubling.pointAt_follows {d : Doubling} {columns : List (Array Felt)} {i : Nat}
    {Q : CurvePoint}
    (hx : ∀ k < steps, d.x.cellAt columns (steps * i + k) = (DoubledPoint.multiples Q).x k)
    (hy : ∀ k < steps, d.y.cellAt columns (steps * i + k) = (DoubledPoint.multiples Q).y k)
    (hslope : ∀ k, k + 1 < steps →
      d.slope.cellAt columns (steps * i + k) = (DoubledPoint.multiples Q).slope k) :
    (d.pointAt columns i).Follows Q :=
  ⟨hx, hy, hslope⟩

namespace DoubledPoint.Follows

variable {d : DoubledPoint} {Q : CurvePoint}

theorem point_eq (h : d.Follows Q) (hQ : Q ≠ 0) {k : Nat} (hk : k < steps) :
    (2 ^ k • Q).point = .affine (d.x k) (d.y k) := by
  rw [h.x k hk, h.y k hk]
  exact CurvePoint.point_eq_affine (CurvePoint.two_pow_nsmul_ne_zero hQ k)

theorem x_zero (h : d.Follows Q) : d.x 0 = Q.point.x := by
  have hzero : d.x 0 = (2 ^ 0 • Q).point.x := h.x 0 (by decide)
  rwa [pow_zero, one_nsmul] at hzero

theorem y_zero (h : d.Follows Q) : d.y 0 = Q.point.y := by
  have hzero : d.y 0 = (2 ^ 0 • Q).point.y := h.y 0 (by decide)
  rwa [pow_zero, one_nsmul] at hzero

theorem doubles (h : d.Follows Q) (hQ : Q ≠ 0) : d.Doubles := by
  have hstep (k : Nat) (hk : k + 1 < steps) : d.x k * d.x k * 3 + 1 = (d.y k + d.y k) * d.slope k ∧
      d.slope k * d.slope k = d.x k + d.x k + d.x (k + 1) ∧
      d.y k + d.y (k + 1) = d.slope k * (d.x k - d.x (k + 1)) := by
    rw [h.x k (Nat.lt_of_succ_lt hk), h.y k (Nat.lt_of_succ_lt hk), h.slope k hk, h.x (k + 1) hk,
      h.y (k + 1) hk]
    simp only [multiples, pow_succ, mul_two, add_nsmul]
    exact CurvePoint.tangent_add_self (CurvePoint.two_pow_nsmul_ne_zero hQ k)
  exact ⟨fun k hk => (hstep k hk).1, fun k hk => (hstep k hk).2.1, fun k hk => (hstep k hk).2.2⟩

end DoubledPoint.Follows

/-! ## Sums -/

/-- The cells of the sum of a point and the multiple of another one by a scalar. -/
def PointSum.multiples (P Q : CurvePoint) (m : Nat) : PointSum where
  x k := (CurvePoint.sumBefore P Q m k).point.x
  y k := (CurvePoint.sumBefore P Q m k).point.y
  suffix k := ((m / 2 ^ k : Nat) : Felt)
  slope k := if m.testBit k then
    (CurvePoint.sumBefore P Q m k).point.chord (2 ^ k • Q).point else 0

/-- The inverse of the difference of the first coordinates of the sum and the point of a step. -/
def PointSum.xDiffInverse (t : PointSum) (pointX : Nat → Felt) (k : Nat) : Felt :=
  (t.x k - pointX k)⁻¹

/-- The cells hold the sums of a point and the multiples of another one by the first digits of a
scalar. -/
structure PointSum.Follows (t : PointSum) (P Q : CurvePoint) (m : Nat) : Prop where
  x : ∀ k < steps, t.x k = (multiples P Q m).x k
  y : ∀ k < steps, t.y k = (multiples P Q m).y k
  suffix : ∀ k < steps, t.suffix k = (multiples P Q m).suffix k
  slope : ∀ k < steps, t.slope k = (multiples P Q m).slope k

theorem SubsetSum.sumAt_follows {s : SubsetSum} {columns : List (Array Felt)} {i : Nat}
    {P Q : CurvePoint} {m : Nat}
    (hx : ∀ k < steps, s.x.cellAt columns (steps * i + k) = (PointSum.multiples P Q m).x k)
    (hy : ∀ k < steps, s.y.cellAt columns (steps * i + k) = (PointSum.multiples P Q m).y k)
    (hsuffix : ∀ k < steps,
      s.suffix.cellAt columns (steps * i + k) = (PointSum.multiples P Q m).suffix k)
    (hslope : ∀ k < steps,
      s.slope.cellAt columns (steps * i + k) = (PointSum.multiples P Q m).slope k) :
    (s.sumAt columns i).Follows P Q m :=
  ⟨hx, hy, hsuffix, hslope⟩

/-- The suffixes of a number have its digits, and are zero from the place after the last one on. -/
theorem PointSum.extracts_of_lt {t : PointSum} {m : Nat}
    (hsuffix : ∀ k < steps, t.suffix k = ((m / 2 ^ k : Nat) : Felt)) {bits : Nat}
    (hm : m < 2 ^ bits) (hbits : bits < steps) : t.Extracts bits := by
  have hzero {k : Nat} (hk : k < steps) (hle : bits ≤ k) : t.suffix k = 0 := by
    rw [hsuffix k hk, Nat.div_eq_of_lt (hm.trans_le (Nat.pow_le_pow_right (by decide) hle)),
      Nat.cast_zero]
  refine ⟨fun k hk => ?_, hzero hbits le_rfl, hzero (by decide) (Nat.le_sub_one_of_lt hbits)⟩
  rw [digit_eq hsuffix hk]
  cases m.testBit k with
  | false => exact Or.inl Nat.cast_zero
  | true => exact Or.inr Nat.cast_one

/-- The cells hold the sums of points that are added if their digit is set in a scalar. -/
structure PointSum.Accumulates (t : PointSum) (P : CurvePoint) (q : Nat → CurvePoint) (m : Nat) :
    Prop where
  x : ∀ k < steps, t.x k = (CurvePoint.digitSum P q m k).point.x
  y : ∀ k < steps, t.y k = (CurvePoint.digitSum P q m k).point.y
  suffix : ∀ k < steps, t.suffix k = ((m / 2 ^ k : Nat) : Felt)
  slope : ∀ k, k + 1 < steps → t.slope k =
    if m.testBit k then (CurvePoint.digitSum P q m k).point.chord (q k).point else 0

namespace PointSum.Accumulates

variable {t : PointSum} {P : CurvePoint} {q : Nat → CurvePoint} {m : Nat}

theorem x_zero (h : t.Accumulates P q m) : t.x 0 = P.point.x := by
  rw [h.x 0 (by decide), CurvePoint.digitSum_zero]

theorem y_zero (h : t.Accumulates P q m) : t.y 0 = P.point.y := by
  rw [h.y 0 (by decide), CurvePoint.digitSum_zero]

theorem suffix_zero {v : Felt} (h : t.Accumulates P q v.val) : t.suffix 0 = v := by
  rw [h.suffix 0 (by decide), pow_zero, Nat.div_one, Felt.natCast_val]

/-- The last step has the sum over all digits. -/
theorem last (h : t.Accumulates P q m) (hm : m < 2 ^ (steps - 1)) :
    t.x (steps - 1) = (CurvePoint.digitSum P q m steps).point.x ∧
      t.y (steps - 1) = (CurvePoint.digitSum P q m steps).point.y := by
  have hsum : CurvePoint.digitSum P q m steps = CurvePoint.digitSum P q m (steps - 1) :=
    CurvePoint.digitSum_succ_of_lt hm
  rw [h.x _ (by decide), h.y _ (by decide), hsum]
  exact ⟨rfl, rfl⟩

theorem extracts (h : t.Accumulates P q m) {bits : Nat} (hm : m < 2 ^ bits)
    (hbits : bits < steps) : t.Extracts bits :=
  extracts_of_lt h.suffix hm hbits

variable {pointX pointY : Nat → Felt}
  (hpoint : ∀ k, k + 1 < steps → m.testBit k = true → (q k).point = .affine (pointX k) (pointY k))
include hpoint

/-- A step copies the sum or adds the point of the step, by the digit of the step. -/
theorem step (h : t.Accumulates P q m) (hP : P ≠ 0) (havoids : CurvePoint.AvoidsDigits P q m)
    {k : Nat} (hk : k + 1 < steps) :
    (t.digit k = 0 ∧ t.slope k = 0 ∧ t.x (k + 1) = t.x k ∧ t.y (k + 1) = t.y k) ∨
    (t.digit k = 1 ∧ t.y k - pointY k = t.slope k * (t.x k - pointX k) ∧
      t.slope k * t.slope k = t.x k + pointX k + t.x (k + 1) ∧
      t.y k + t.y (k + 1) = t.slope k * (t.x k - t.x (k + 1))) := by
  have hsum {j : Nat} (hj : j < steps) :
      (CurvePoint.digitSum P q m j).point = .affine (t.x j) (t.y j) := by
    rw [h.x j hj, h.y j hj]
    exact CurvePoint.point_eq_affine (havoids.digitSum_ne_zero hP hj)
  have hnow := hsum (Nat.lt_of_succ_lt hk)
  have hnext := hsum hk
  have hslope := h.slope k hk
  rw [digit_eq h.suffix hk]
  cases hbit : m.testBit k with
  | false =>
    rw [CurvePoint.digitSum_succ_of_not_testBit hbit, hnow, Point.affine.injEq] at hnext
    rw [hbit] at hslope
    exact Or.inl ⟨Nat.cast_zero, hslope, hnext.1.symm, hnext.2.symm⟩
  | true =>
    have hne : t.x k ≠ pointX k := by
      have hx := havoids k hk hbit
      rwa [hnow, hpoint k hk hbit] at hx
    rw [hbit, if_pos rfl, hnow, hpoint k hk hbit, eq_comm, Point.chord_eq_iff hne] at hslope
    rw [CurvePoint.digitSum_succ_of_testBit hbit, CurvePoint.add_point, hnow, hpoint k hk hbit,
      Point.add_eq_affine_iff_of_chord (inv_mul_cancel₀ (sub_ne_zero.mpr hne)) hslope] at hnext
    exact Or.inr ⟨Nat.cast_one, hslope, hnext⟩

theorem adds (h : t.Accumulates P q m) (hP : P ≠ 0) (havoids : CurvePoint.AvoidsDigits P q m) :
    t.Adds pointX pointY where
  slope k hk := by
    rcases h.step hpoint hP havoids hk with ⟨hdigit, hslope, -⟩ | ⟨hdigit, hslope, -⟩
    · rw [hdigit, hslope, zero_mul, zero_mul]
    · rw [hdigit, one_mul, hslope]
  x k hk := by
    rcases h.step hpoint hP havoids hk with ⟨hdigit, hslope, -⟩ | ⟨hdigit, -, hx, -⟩
    · rw [hdigit, hslope, zero_mul, zero_mul]
    · rw [hdigit, one_mul, hx]
  y k hk := by
    rcases h.step hpoint hP havoids hk with ⟨hdigit, hslope, -⟩ | ⟨hdigit, -, -, hy⟩
    · rw [hdigit, hslope, zero_mul, zero_mul]
    · rw [hdigit, one_mul, hy]
  copy_x k hk := by
    rcases h.step hpoint hP havoids hk with ⟨-, -, hx, -⟩ | ⟨hdigit, -⟩
    · rw [hx, sub_self, mul_zero]
    · rw [hdigit, sub_self, zero_mul]
  copy_y k hk := by
    rcases h.step hpoint hP havoids hk with ⟨-, -, -, hy⟩ | ⟨hdigit, -⟩
    · rw [hy, sub_self, mul_zero]
    · rw [hdigit, sub_self, zero_mul]

end PointSum.Accumulates

namespace PointSum.Follows

variable {t : PointSum} {P Q : CurvePoint} {m : Nat}

theorem accumulates (h : t.Follows P Q m) : t.Accumulates P (fun k => 2 ^ k • Q) m where
  x k hk := CurvePoint.sumBefore_eq_digitSum (P := P) k ▸ h.x k hk
  y k hk := CurvePoint.sumBefore_eq_digitSum (P := P) k ▸ h.y k hk
  suffix := h.suffix
  slope k hk := CurvePoint.sumBefore_eq_digitSum (P := P) k ▸ h.slope k (Nat.lt_of_succ_lt hk)

/-- The last step has the sum with the whole multiple. -/
theorem last (h : t.Follows P Q m) (hm : m < 2 ^ (steps - 1)) :
    t.x (steps - 1) = (P + m • Q).point.x ∧ t.y (steps - 1) = (P + m • Q).point.y := by
  rw [h.x _ (by decide), h.y _ (by decide), ← CurvePoint.sumBefore_of_lt P Q hm]
  exact ⟨rfl, rfl⟩

theorem extracts (h : t.Follows P Q m) {bits : Nat} (hm : m < 2 ^ bits) (hbits : bits < steps) :
    t.Extracts bits :=
  h.accumulates.extracts hm hbits

variable {pointX pointY : Nat → Felt}
  (hpoint : ∀ k, k + 1 < steps → (2 ^ k • Q).point = .affine (pointX k) (pointY k))
include hpoint

theorem adds (h : t.Follows P Q m) (hP : P ≠ 0) (havoids : CurvePoint.Avoids P Q m) :
    t.Adds pointX pointY :=
  h.accumulates.adds (fun k hk _ => hpoint k hk) hP havoids.avoidsDigits

/-- Cells that hold the inverses for the multiples of a point. -/
theorem xDiffInv (h : t.Follows P Q m) (havoids : CurvePoint.Avoids P Q m) {inv : Nat → Felt}
    (hinv : ∀ k, k + 1 < steps →
      inv k = (multiples P Q m).xDiffInverse (DoubledPoint.multiples Q).x k) (k : Nat)
    (hk : k + 1 < steps) : inv k * (t.x k - pointX k) = 1 := by
  have hx : (2 ^ k • Q).point.x = pointX k := by rw [hpoint k hk, Point.x]
  have hinverse : inv k = (t.x k - pointX k)⁻¹ := by
    rw [hinv k hk, h.x k (Nat.lt_of_succ_lt hk), ← hx]
    rfl
  have hne : t.x k - pointX k ≠ 0 := by
    rw [h.x k (Nat.lt_of_succ_lt hk), ← hx]
    exact sub_ne_zero.mpr (havoids k hk)
  rw [hinverse, inv_mul_cancel₀ hne]

end PointSum.Follows

/-- A scalar without the digit 251 is unpacked with zeros. -/
theorem PointSum.unpacks_zero {t : PointSum} (h : t.digit 251 = 0) : t.Unpacks 0 0 where
  last_one := zero_mul _
  zeroes_below_192 := zero_mul _
  cumulative_192 := (zero_mul _).symm
  zeroes_below_196 := zero_mul _
  cumulative_196 := by rw [h, zero_mul]
  zeroes_below_251 := by rw [h, zero_mul]

/-- A scalar below the modulus of the field is unpacked with the products of its digits. -/
theorem PointSum.unpacks_of_lt {t : PointSum} {m : Nat}
    (hsuffix : ∀ k < steps, t.suffix k = ((m / 2 ^ k : Nat) : Felt)) (hm : m < starkPrime) :
    t.Unpacks (unpackingProducts m).1 (unpackingProducts m).2 := by
  have hprime : starkPrime = 2 ^ 251 + 17 * 2 ^ 192 + 1 := by decide
  have hdigit {k : Nat} (hk : k + 1 < steps) : t.digit k = ((m.testBit k).toNat : Felt) :=
    digit_eq hsuffix hk
  have hbit (k : Nat) : m.testBit k = true ↔ m / 2 ^ k % 2 = 1 := by
    rw [Nat.testBit_eq_decide_div_mod_eq, decide_eq_true_eq]
  have hand (b c : Bool) : ((b && c).toNat : Felt) = (b.toNat : Felt) * (c.toNat : Felt) := by
    cases b with
    | false => rw [Bool.false_and, Bool.toNat_false, Nat.cast_zero, zero_mul]
    | true => rw [Bool.true_and, Bool.toNat_true, Nat.cast_one, one_mul]
  have hzeroes (b : Bool) {j e : Nat} (hj : j < steps) (hje : j + e < steps)
      (hset : b = true → m / 2 ^ j = m / 2 ^ (j + e) * 2 ^ e) :
      ((b.toNat : Nat) : Felt) * (t.suffix j - t.suffix (j + e) * 2 ^ e) = 0 := by
    cases b with
    | false => rw [Bool.toNat_false, Nat.cast_zero, zero_mul]
    | true =>
      rw [hsuffix j hj, hsuffix (j + e) hje, hset rfl]
      push_cast
      ring
  have h251 : m.testBit 251 = true → m / 2 ^ 197 = m / 2 ^ 251 * 2 ^ 54 := by
    rw [hbit]
    omega
  have h196 : (m.testBit 251 && m.testBit 196) = true → m / 2 ^ 193 = m / 2 ^ 196 * 2 ^ 3 := by
    rw [Bool.and_eq_true, hbit, hbit]
    omega
  have h192 : (m.testBit 251 && m.testBit 196 && m.testBit 192) = true →
      m / 2 ^ 1 = m / 2 ^ 192 * 2 ^ 191 ∧ m.testBit 0 = false := by
    rw [Bool.and_eq_true, Bool.and_eq_true, hbit, hbit, hbit, ← Bool.not_eq_true, hbit]
    omega
  have hproducts : (unpackingProducts m).1 =
      ((m.testBit 251 && m.testBit 196 && m.testBit 192).toNat : Felt) ∧
        (unpackingProducts m).2 = ((m.testBit 251 && m.testBit 196).toNat : Felt) := ⟨rfl, rfl⟩
  rw [hproducts.1, hproducts.2]
  constructor
  case last_one =>
    rw [hdigit (by decide), ← hand, Bool.and_eq_false_imp.mpr fun h => (h192 h).2, Bool.toNat_false,
      Nat.cast_zero]
  case zeroes_below_192 =>
    exact hzeroes (j := 1) (e := 191) _ (by decide) (by decide) fun h => (h192 h).1
  case cumulative_192 => rw [hdigit (by decide), hand (_ && _)]
  case zeroes_below_196 => exact hzeroes (j := 193) (e := 3) _ (by decide) (by decide) h196
  case cumulative_196 => rw [hdigit (by decide), hdigit (by decide), hand]
  case zeroes_below_251 =>
    rw [hdigit (by decide)]
    exact hzeroes (j := 197) (e := 54) _ (by decide) (by decide) h251

end CairoTrace
