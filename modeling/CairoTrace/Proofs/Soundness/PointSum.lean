import CairoTrace.Proofs.Component.SumRows
import CairoTrace.Proofs.Curve.Steps

/-!
# Sums of points follow the group law

The suffixes of a sum are those of one number (`PointSum.Extracts.exists_scalar`), and after `k`
steps the sum has the multiple by the first `k` digits of it added to the point that it started at
(`PointSum.Adds.point_eq`). If the digits are unpacked, the number is below the modulus of the field
(`PointSum.Unpacks.lt_starkPrime`), and so is the representative of the scalar.
-/

namespace CairoTrace

open SubsetSum (steps)

/-! ## Scalars -/

/-- A run of suffixes that ends with zero writes the digits of a number. -/
theorem exists_scalar_of_digits (d : Nat) (s : Nat → Felt)
    (hbit : ∀ k < d, s k - (s (k + 1) + s (k + 1)) = 0 ∨ s k - (s (k + 1) + s (k + 1)) = 1)
    (hlast : s d = 0) : ∃ m < 2 ^ d, ∀ k ≤ d, s k = ((m / 2 ^ k : Nat) : Felt) := by
  induction d generalizing s with
  | zero =>
    refine ⟨0, Nat.one_pos, fun k hk => ?_⟩
    rw [Nat.le_zero.mp hk, hlast, Nat.zero_div, Nat.cast_zero]
  | succ d ih =>
    obtain ⟨m, hm, hs⟩ := ih (fun k => s (k + 1)) (fun k hk => hbit (k + 1) (by omega)) hlast
    obtain ⟨digit, hdigit, hs0⟩ : ∃ digit < 2, s 0 = ((2 * m + digit : Nat) : Felt) := by
      have hs1 : s 1 = (m : Felt) := by rw [hs 0 (Nat.zero_le d), pow_zero, Nat.div_one]
      rcases hbit 0 (Nat.succ_pos d) with hzero | hone
      · refine ⟨0, by decide, ?_⟩
        rw [zero_add, hs1] at hzero
        push_cast
        linear_combination hzero
      · refine ⟨1, by decide, ?_⟩
        rw [zero_add, hs1] at hone
        push_cast
        linear_combination hone
    refine ⟨2 * m + digit, by rw [pow_succ]; omega, fun k hk => ?_⟩
    cases k with
    | zero => rw [hs0, pow_zero, Nat.div_one]
    | succ k =>
      have hhalf : (2 * m + digit) / 2 = m := by omega
      rw [hs k (by omega), pow_succ', ← Nat.div_div_eq_div_mul, hhalf]

namespace PointSum

variable {t : PointSum} {bits m : Nat}

/-- The suffixes of a sum are those of a number that has no other digits than those it may have. -/
theorem Extracts.exists_scalar (h : t.Extracts bits) (hmin : 4 ≤ bits) (hbits : bits < steps) :
    ∃ m < 2 ^ bits, ∀ k < steps, t.suffix k = ((m / 2 ^ k : Nat) : Felt) := by
  obtain ⟨m, hm, hsuffix⟩ := exists_scalar_of_digits (steps - 1) t.suffix
    (fun k hk => h.digit_bit k (by omega)) h.suffix_last
  refine ⟨m, ?_, fun k hk => hsuffix k (Nat.le_sub_one_of_lt hk)⟩
  have hsplit : 2 ^ (steps - 1) = 2 ^ bits * 2 ^ (steps - 1 - bits) := by
    rw [← pow_add]
    congr 1
    omega
  have hlt : m / 2 ^ bits < starkPrime := by
    refine (Nat.div_lt_of_lt_mul (hsplit ▸ hm)).trans (lt_of_le_of_lt ?_ (by decide : 2 ^ 251 < _))
    exact Nat.pow_le_pow_right (by decide) (by rw [steps] at *; omega)
  have hzero : m / 2 ^ bits = 0 := by
    apply Felt.natCast_inj_of_lt hlt (by decide)
    rw [← hsuffix bits (Nat.le_sub_one_of_lt hbits), h.suffix_bits, Nat.cast_zero]
  exact (Nat.div_eq_zero_iff_lt (Nat.two_pow_pos bits)).mp hzero

/-- The digit of a step is that of the number. -/
theorem digit_eq (hsuffix : ∀ k < steps, t.suffix k = ((m / 2 ^ k : Nat) : Felt)) {k : Nat}
    (hk : k + 1 < steps) : t.digit k = ((m.testBit k).toNat : Felt) := by
  have hdiv : m / 2 ^ k = 2 * (m / 2 ^ (k + 1)) + (m.testBit k).toNat := by
    rw [Nat.toNat_testBit, pow_succ, ← Nat.div_div_eq_div_mul]
    omega
  rw [digit, hsuffix k (by omega), hsuffix (k + 1) hk, hdiv]
  push_cast
  ring

/-- The digits between two suffixes are zero if the first one is a multiple of the second. -/
theorem div_eq_of_suffix_eq (hsuffix : ∀ k < steps, t.suffix k = ((m / 2 ^ k : Nat) : Felt))
    (hm : m < 2 ^ 252) {j e : Nat} (hj : 0 < j) (hk : j + e < steps)
    (h : t.suffix j - t.suffix (j + e) * 2 ^ e = 0) : m / 2 ^ j = m / 2 ^ (j + e) * 2 ^ e := by
  have hle : m / 2 ^ (j + e) * 2 ^ e ≤ m / 2 ^ j := by
    rw [pow_add, ← Nat.div_div_eq_div_mul]
    exact Nat.div_mul_le_self _ _
  have hlt : m / 2 ^ j < starkPrime := by
    have hhalf : m / 2 ^ j ≤ m / 2 := Nat.div_le_div_left (Nat.le_self_pow hj.ne' 2) (by decide)
    have hprime : 2 ^ 251 < starkPrime := by decide
    omega
  apply Felt.natCast_inj_of_lt hlt (hle.trans_lt hlt)
  rw [hsuffix j (by omega), hsuffix (j + e) hk, sub_eq_zero] at h
  rw [h]
  push_cast
  rfl

/-- A number whose digits are unpacked is below the modulus of the field. -/
theorem Unpacks.lt_starkPrime {ones192 ones196 : Felt} (h : t.Unpacks ones192 ones196)
    (hsuffix : ∀ k < steps, t.suffix k = ((m / 2 ^ k : Nat) : Felt)) (hm : m < 2 ^ 252) :
    m < starkPrime := by
  have hprime : starkPrime = 2 ^ 251 + 17 * 2 ^ 192 + 1 := by decide
  have hdigit {k : Nat} (hk : k + 1 < steps) : t.digit k = ((m / 2 ^ k % 2 : Nat) : Felt) := by
    rw [digit_eq hsuffix hk, Nat.toNat_testBit]
  by_contra hge
  have h251 : t.digit 251 = 1 := by
    rw [hdigit (by decide), show m / 2 ^ 251 % 2 = 1 by omega, Nat.cast_one]
  have hbelow251 : m / 2 ^ 197 = m / 2 ^ 251 * 2 ^ 54 := by
    have hzero := h.zeroes_below_251
    rw [h251, one_mul] at hzero
    exact div_eq_of_suffix_eq (e := 54) hsuffix hm (by decide) (by decide) hzero
  have hones196 : ones196 = 1 := by
    rw [h.cumulative_196, h251, hdigit (by decide), show m / 2 ^ 196 % 2 = 1 by omega, Nat.cast_one,
      mul_one]
  have hbelow196 : m / 2 ^ 193 = m / 2 ^ 196 * 2 ^ 3 := by
    have hzero := h.zeroes_below_196
    rw [hones196, one_mul] at hzero
    exact div_eq_of_suffix_eq (e := 3) hsuffix hm (by decide) (by decide) hzero
  have hones192 : ones192 = 1 := by
    rw [h.cumulative_192, hones196, hdigit (by decide), show m / 2 ^ 192 % 2 = 1 by omega,
      Nat.cast_one, mul_one]
  have hbelow192 : m / 2 ^ 1 = m / 2 ^ 192 * 2 ^ 191 := by
    have hzero := h.zeroes_below_192
    rw [hones192, one_mul] at hzero
    exact div_eq_of_suffix_eq (e := 191) hsuffix hm (by decide) (by decide) hzero
  -- The number is the modulus less one unless its lowest digit is set.
  have hlast : m / 2 ^ 0 % 2 ≠ 0 := by omega
  have hzero := h.last_one
  rw [hones192, one_mul, hdigit (by decide), show m / 2 ^ 0 % 2 = 1 by omega, Nat.cast_one] at hzero
  exact one_ne_zero hzero

/-! ## The run of a sum -/

section Run

variable {inv pointX pointY : Nat → Felt} {P Q : CurvePoint}

/-- One step adds the point of the step if its digit is set. -/
theorem Adds.step (h : t.Adds pointX pointY)
    (hinv : ∀ k, k + 1 < steps → inv k * (t.x k - pointX k) = 1) {k : Nat} (hk : k + 1 < steps)
    {bit : Bool} (hdigit : t.digit k = (bit.toNat : Felt)) (hP : P.point = .affine (t.x k) (t.y k))
    (hQ : Q.point = .affine (pointX k) (pointY k)) :
    (P + bit.toNat • Q).point = .affine (t.x (k + 1)) (t.y (k + 1)) := by
  have hslope := h.slope k hk
  have hx := h.x k hk
  have hy := h.y k hk
  cases bit with
  | false =>
    have hcopyX := h.copy_x k hk
    have hcopyY := h.copy_y k hk
    rw [hdigit, Bool.toNat_false, Nat.cast_zero, sub_zero, one_mul, sub_eq_zero] at hcopyX hcopyY
    rw [Bool.toNat_false, zero_nsmul, add_zero, hP, hcopyX, hcopyY]
  | true =>
    rw [hdigit, Bool.toNat_true, Nat.cast_one, one_mul] at hslope hx hy
    rw [Bool.toNat_true, one_nsmul, CurvePoint.add_point, hP, hQ]
    exact (Point.add_eq_affine_iff_of_chord (hinv k hk) hslope).mpr ⟨hx, hy⟩

/-- After each step the sum is the point it started at, with the multiple by the digits that have
been used. -/
theorem Adds.point_eq (h : t.Adds pointX pointY)
    (hinv : ∀ k, k + 1 < steps → inv k * (t.x k - pointX k) = 1)
    (hsuffix : ∀ k < steps, t.suffix k = ((m / 2 ^ k : Nat) : Felt))
    (hP : P.point = .affine (t.x 0) (t.y 0))
    (hQ : ∀ k, k + 1 < steps → (2 ^ k • Q).point = .affine (pointX k) (pointY k)) {k : Nat}
    (hk : k < steps) : (CurvePoint.sumBefore P Q m k).point = .affine (t.x k) (t.y k) := by
  induction k with
  | zero => rwa [CurvePoint.sumBefore_zero]
  | succ k ih =>
    rw [CurvePoint.sumBefore_succ]
    exact h.step hinv hk (digit_eq hsuffix hk) (ih (by omega)) (hQ k hk)

/-- A sum leads to the multiple by its scalar, added to the point it started at. -/
theorem Adds.last_eq (h : t.Adds pointX pointY)
    (hinv : ∀ k, k + 1 < steps → inv k * (t.x k - pointX k) = 1)
    (hsuffix : ∀ k < steps, t.suffix k = ((m / 2 ^ k : Nat) : Felt)) (hm : m < 2 ^ (steps - 1))
    (hP : P.point = .affine (t.x 0) (t.y 0))
    (hQ : ∀ k, k + 1 < steps → (2 ^ k • Q).point = .affine (pointX k) (pointY k)) :
    (P + m • Q).point = .affine (t.x (steps - 1)) (t.y (steps - 1)) := by
  have hlast := h.point_eq hinv hsuffix hP hQ (Nat.sub_one_lt_of_lt (by decide : 0 < steps))
  rwa [CurvePoint.sumBefore_of_lt _ _ hm] at hlast

end Run

end PointSum

/-- The cells of a doubling hold the doubles of its first point. -/
theorem DoubledPoint.Doubles.point_eq {d : DoubledPoint} {Q : CurvePoint} (h : d.Doubles)
    (hQ : Q.point = .affine (d.x 0) (d.y 0)) {k : Nat} (hk : k < steps) :
    (2 ^ k • Q).point = .affine (d.x k) (d.y k) := by
  induction k with
  | zero => rwa [pow_zero, one_nsmul]
  | succ k ih =>
    have hpoint := ih (by omega)
    have honCurve := (2 ^ k • Q).onCurve
    rw [hpoint] at honCurve
    rw [pow_succ, mul_two, add_nsmul, CurvePoint.add_point, hpoint]
    exact (Point.add_self_eq_affine_iff_of_tangent honCurve (h.slope k hk)).mpr
      ⟨h.x k hk, h.y k hk⟩

end CairoTrace
