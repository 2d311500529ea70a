import CairoTrace.Constraint.Error
import CairoTrace.Proofs.Result
import CairoTrace.Proofs.StarkField
import Mathlib.Algebra.Polynomial.Monic
import Mathlib.Algebra.Polynomial.Div

/-!
# Sets of rows and their vanishing factors

A set of rows that fits in a trace is a residue class of its stride, which divides the length of
the trace (`Fits`). Its vanishing factor is zero at the point of a row exactly if the row is in the
set (`eval_factor_row_eq_zero_iff`), and it has no other roots (`eval_factor_eq_zero_iff`). As its
roots are as many as its degree, it divides every polynomial that is zero at the points of the set
(`poly_factor_dvd`).
-/

namespace CairoTrace

namespace Rows

variable {n : Nat} {rows : Rows}

/-! ## Residue classes -/

theorem stride_pos (hn : isPowerOfTwo n = true) (h : rows.fits n = true) : 0 < rows.stride n := by
  cases rows with
  | every step offset =>
    simp only [fits, Bool.and_eq_true, decide_eq_true_eq] at h
    exact pos_of_isPowerOfTwo h.1.1
  | first k | fromEnd k => exact pos_of_isPowerOfTwo hn

theorem stride_dvd (hn : isPowerOfTwo n = true) (h : rows.fits n = true) : rows.stride n ∣ n := by
  cases rows with
  | every step offset =>
    simp only [fits, Bool.and_eq_true, decide_eq_true_eq] at h
    exact dvd_of_isPowerOfTwo h.1.1 hn h.1.2
  | first k | fromEnd k => exact dvd_rfl

theorem start_lt_stride (hn : isPowerOfTwo n = true) (h : rows.fits n = true) :
    rows.start n < rows.stride n := by
  have hpos := pos_of_isPowerOfTwo hn
  cases rows with
  | every step offset | first k | fromEnd k =>
    simp only [fits, Bool.and_eq_true, decide_eq_true_eq] at h
    simp only [start, stride]
    omega

theorem contains_iff {row : Nat} :
    rows.contains n row = true ↔ row < n ∧ row % rows.stride n = rows.start n := by
  simp [contains]

/-- Whether a set of rows is a residue class of a divisor of the length. -/
structure IsResidueClass (n : Nat) (rows : Rows) : Prop where
  stride_pos : 0 < rows.stride n
  stride_dvd : rows.stride n ∣ n
  start_lt : rows.start n < rows.stride n

theorem isResidueClass_of_fits (hn : isPowerOfTwo n = true) (h : rows.fits n = true) :
    rows.IsResidueClass n :=
  ⟨stride_pos hn h, stride_dvd hn h, start_lt_stride hn h⟩

theorem isResidueClass_every {step offset : Nat} (hdvd : step ∣ n) (hoffset : offset < step) :
    (every step offset).IsResidueClass n :=
  ⟨Nat.zero_lt_of_lt hoffset, hdvd, hoffset⟩

theorem isResidueClass_first {k : Nat} (hk : k < n) : (first k).IsResidueClass n :=
  ⟨Nat.zero_lt_of_lt hk, dvd_rfl, hk⟩

theorem isResidueClass_fromEnd {k : Nat} (hk : 1 ≤ k) (hle : k ≤ n) :
    (fromEnd k).IsResidueClass n :=
  ⟨hk.trans hle, dvd_rfl, Nat.sub_lt (hk.trans hle) hk⟩

/-- The listed rows are those of the set, as the first one is below the stride. -/
theorem IsResidueClass.mem_toList_iff (h : rows.IsResidueClass n) {row : Nat} :
    row ∈ rows.toList n ↔ rows.contains n row = true := by
  have hstart := h.start_lt
  obtain ⟨count, hcount⟩ := h.stride_dvd
  have hlength : (n - rows.start n + rows.stride n - 1) / rows.stride n = count := by
    rw [Nat.div_eq_iff h.stride_pos]
    have : rows.stride n * count = count * rows.stride n := mul_comm _ _
    omega
  have hle : count ≤ n := by
    rw [hcount]
    exact Nat.le_mul_of_pos_left count h.stride_pos
  rw [contains_iff, toList, take, progression, hlength, min_eq_right hle, List.mem_map]
  constructor
  · rintro ⟨i, hi, rfl⟩
    rw [List.mem_range] at hi
    have hmul : (i + 1) * rows.stride n ≤ count * rows.stride n := Nat.mul_le_mul_right _ hi
    refine ⟨?_, ?_⟩
    · rw [add_mul, mul_comm count, ← hcount] at hmul
      omega
    · rw [Nat.add_mul_mod_self_right, Nat.mod_eq_of_lt hstart]
  · rintro ⟨hrow, hmod⟩
    refine ⟨row / rows.stride n, ?_, ?_⟩
    · rw [List.mem_range]
      rw [hcount] at hrow
      exact Nat.div_lt_of_lt_mul hrow
    · rw [← hmod, mul_comm, Nat.mod_add_div]

/-- A set whose stride and first row are those of a member of another set lies in it. -/
theorem contains_of_isSubset {a b : Rows} (hsub : a.isSubset n b = true) {row : Nat}
    (hrow : a.contains n row = true) : b.contains n row = true := by
  rw [isSubset, Bool.and_eq_true, beq_iff_eq, beq_iff_eq] at hsub
  rw [contains_iff] at hrow ⊢
  refine ⟨hrow.1, ?_⟩
  rw [← hsub.2, ← hrow.2, Nat.mod_mod_of_dvd _ (Nat.dvd_of_mod_eq_zero hsub.1)]

/-! ## Progressions that fit -/

theorem fits_every {step offset : Nat} (hstep : isPowerOfTwo step = true) (hle : step ≤ n)
    (hoffset : offset < step) : (every step offset).fits n = true := by
  simp [fits, hstep, hle, hoffset]

theorem fits_fromEnd {k : Nat} (hk : 1 ≤ k) (hle : k ≤ n) : (fromEnd k).fits n = true := by
  simp [fits, hk, hle]

theorem fits_first {k : Nat} (hk : k < n) : (first k).fits n = true := by
  simp [fits, hk]

theorem every_isSubset_every {a b offset : Nat} (ha : b ∣ a) (hoffset : b ∣ offset) :
    (every a offset).isSubset n (every b 0) = true := by
  simp [isSubset, stride, start, Nat.mod_eq_zero_of_dvd ha, Nat.mod_eq_zero_of_dvd hoffset]

theorem fromEnd_isSubset_every {k step : Nat} (hn : step ∣ n) (hk : step ∣ k) :
    (fromEnd k).isSubset n (every step 0) = true := by
  simp [isSubset, stride, start, Nat.mod_eq_zero_of_dvd hn,
    Nat.mod_eq_zero_of_dvd (Nat.dvd_sub hn hk)]

/-! ## Vanishing factors -/

theorem exponent_mul_stride (hn : isPowerOfTwo n = true) (h : rows.fits n = true) :
    (rows.factor n).exponent * rows.stride n = n :=
  Nat.div_mul_cancel (stride_dvd hn h)

theorem exponent_pos (hn : isPowerOfTwo n = true) (h : rows.fits n = true) :
    0 < (rows.factor n).exponent := by
  refine Nat.pos_of_ne_zero fun hzero => (pos_of_isPowerOfTwo hn).ne ?_
  rw [← exponent_mul_stride hn h, hzero, zero_mul]

theorem exponent_dvd (hn : isPowerOfTwo n = true) (h : rows.fits n = true) :
    (rows.factor n).exponent ∣ n :=
  ⟨_, (exponent_mul_stride hn h).symm⟩

/-- A part of a set of rows has no more rows. -/
theorem exponent_le_of_isSubset {a b : Rows} (hn : isPowerOfTwo n = true) (ha : a.fits n = true)
    (hb : b.fits n = true) (hsub : a.isSubset n b = true) :
    (a.factor n).exponent ≤ (b.factor n).exponent := by
  rw [isSubset, Bool.and_eq_true, beq_iff_eq, beq_iff_eq] at hsub
  have hle := Nat.le_of_dvd (stride_pos hn ha) (Nat.dvd_of_mod_eq_zero hsub.1)
  exact Nat.div_le_div_left hle (stride_pos hn hb)

/-- Rows are multiplied by the exponent without loss, as the stride times it is the length. -/
theorem mul_exponent_mod (hn : isPowerOfTwo n = true) (h : rows.fits n = true) (row : Nat) :
    row * (rows.factor n).exponent % n = row % rows.stride n * (rows.factor n).exponent := by
  have hmul := Nat.mul_mod_mul_right (rows.factor n).exponent row (rows.stride n)
  rwa [mul_comm (rows.stride n), exponent_mul_stride hn h] at hmul

theorem shift_factor (hn : isPowerOfTwo n = true) (h : rows.fits n = true) :
    (rows.factor n).shift = rows.start n * (rows.factor n).exponent := by
  have hmod := mul_exponent_mod hn h (rows.start n)
  rw [Nat.mod_eq_of_lt (start_lt_stride hn h)] at hmod
  exact hmod

end Rows

namespace VanishingFactor

/-- The factor as a polynomial. -/
noncomputable def poly (f : VanishingFactor) (generator : Felt) : Polynomial Felt :=
  .X ^ f.exponent - .C (f.shiftValue generator)

@[simp] theorem eval_poly (f : VanishingFactor) (x generator : Felt) :
    (f.poly generator).eval x = f.eval x generator := by
  rw [poly, Polynomial.eval_sub, Polynomial.eval_pow, Polynomial.eval_X, Polynomial.eval_C]
  rfl

theorem natDegree_poly (f : VanishingFactor) (generator : Felt) :
    (f.poly generator).natDegree = f.exponent :=
  Polynomial.natDegree_X_pow_sub_C

theorem monic_poly {f : VanishingFactor} (generator : Felt) (h : 0 < f.exponent) :
    (f.poly generator).Monic :=
  Polynomial.monic_X_pow_sub_C _ h.ne'

end VanishingFactor

namespace Rows

variable {n : Nat} {rows : Rows} {g : Felt}

theorem eval_factor_row_eq_zero_iff (hn : isPowerOfTwo n = true) (hg : IsPrimitiveRoot g n)
    (h : rows.fits n = true) {row : Nat} (hrow : row < n) :
    (rows.factor n).eval (g ^ row) g = 0 ↔ rows.contains n row = true := by
  have hexp := exponent_pos hn h
  rw [VanishingFactor.eval, VanishingFactor.shiftValue, sub_eq_zero, ← pow_mul,
    Felt.pow_eq_pow_iff (pos_of_isPowerOfTwo hn) hg, mul_exponent_mod hn h, shift_factor hn h,
    mul_exponent_mod hn h, Nat.mod_eq_of_lt (start_lt_stride hn h), contains_iff,
    Nat.mul_left_inj hexp.ne']
  exact (and_iff_right hrow).symm

theorem eval_factor_eq_zero_iff (hn : isPowerOfTwo n = true) (hg : IsPrimitiveRoot g n)
    (h : rows.fits n = true) {x : Felt} :
    (rows.factor n).eval x g = 0 ↔ ∃ row, rows.contains n row = true ∧ x = g ^ row := by
  constructor
  · intro hx
    have hpow : x ^ (rows.factor n).exponent = g ^ (rows.factor n).shift := sub_eq_zero.mp hx
    have hone : x ^ n = 1 := by
      rw [← exponent_mul_stride hn h, pow_mul, hpow, shift_factor hn h, ← pow_mul, mul_assoc,
        exponent_mul_stride hn h, mul_comm, pow_mul, hg.pow_eq_one, one_pow]
    have : NeZero n := ⟨(pos_of_isPowerOfTwo hn).ne'⟩
    obtain ⟨row, hrow, rfl⟩ := hg.eq_pow_of_pow_eq_one hone
    exact ⟨row, (eval_factor_row_eq_zero_iff hn hg h hrow).mp hx, rfl⟩
  · rintro ⟨row, hrow, rfl⟩
    exact (eval_factor_row_eq_zero_iff hn hg h (contains_iff.mp hrow).1).mpr hrow

/-- All roots of vanishing factors are points of the trace domain. -/
theorem pow_eq_one_of_eval_factor (hn : isPowerOfTwo n = true) (hg : IsPrimitiveRoot g n)
    (h : rows.fits n = true) {x : Felt} (hx : (rows.factor n).eval x g = 0) : x ^ n = 1 := by
  obtain ⟨row, -, rfl⟩ := (eval_factor_eq_zero_iff hn hg h).mp hx
  rw [← pow_mul, mul_comm, pow_mul, hg.pow_eq_one, one_pow]

/-- The points of a set are the roots of its factor and as many as its degree. The remainder of a
division by the factor has a smaller degree, so it is zero if it is zero at the points. -/
theorem poly_factor_dvd (hn : isPowerOfTwo n = true) (hg : IsPrimitiveRoot g n)
    (h : rows.fits n = true) {p : Polynomial Felt}
    (hp : ∀ row, rows.contains n row = true → p.eval (g ^ row) = 0) :
    (rows.factor n).poly g ∣ p := by
  have hexp := exponent_pos hn h
  have hmonic := VanishingFactor.monic_poly g hexp
  rw [← Polynomial.modByMonic_eq_zero_iff_dvd hmonic]
  have hrow (i : Fin (rows.factor n).exponent) :
      rows.contains n (rows.start n + i * rows.stride n) = true := by
    have hi : (i + 1) * rows.stride n ≤ n :=
      (Nat.mul_le_mul_right _ i.isLt).trans (exponent_mul_stride hn h).le
    have hstart := start_lt_stride hn h
    rw [contains_iff, Nat.add_mul_mod_self_right, Nat.mod_eq_of_lt hstart]
    rw [add_mul] at hi
    omega
  apply Polynomial.eq_zero_of_natDegree_lt_card_of_eval_eq_zero
    (f := fun i : Fin (rows.factor n).exponent => g ^ (rows.start n + i * rows.stride n))
  · intro i j hij
    have hpow := hg.pow_inj (contains_iff.mp (hrow i)).1 (contains_iff.mp (hrow j)).1 hij
    exact Fin.ext (Nat.eq_of_mul_eq_mul_right (stride_pos hn h) (by omega))
  · intro i
    have hroot : ((rows.factor n).poly g).IsRoot (g ^ (rows.start n + i * rows.stride n)) := by
      rw [Polynomial.IsRoot, VanishingFactor.eval_poly]
      exact (eval_factor_eq_zero_iff hn hg h).mpr ⟨_, hrow i, rfl⟩
    have hdiv := congrArg (fun q => q.eval (g ^ (rows.start n + i * rows.stride n)))
      (Polynomial.modByMonic_add_div p ((rows.factor n).poly g))
    rwa [Polynomial.eval_add, Polynomial.eval_mul, hroot.eq_zero, zero_mul, add_zero,
      hp _ (hrow i)] at hdiv
  · have hne : (rows.factor n).poly g ≠ 1 := fun hone => hexp.ne' <| by
      rw [← VanishingFactor.natDegree_poly _ g, hone, Polynomial.natDegree_one]
    have hlt := Polynomial.natDegree_modByMonic_lt p hmonic hne
    rwa [VanishingFactor.natDegree_poly, ← Fintype.card_fin (rows.factor n).exponent] at hlt

/-! ## Validity -/

theorem validate_eq_ok_iff :
    rows.validate n = .ok () ↔ isPowerOfTwo n = true ∧ rows.fits n = true := by
  unfold validate
  split <;> simp_all

theorem vanishingFactor_eq_ok_iff {f : VanishingFactor} :
    rows.vanishingFactor n = .ok f ↔
      isPowerOfTwo n = true ∧ rows.fits n = true ∧ f = rows.factor n := by
  rw [vanishingFactor, Result.bind_eq_ok_iff]
  constructor
  · rintro ⟨⟨⟩, hvalid, h⟩
    obtain ⟨hn, hfits⟩ := validate_eq_ok_iff.mp hvalid
    exact ⟨hn, hfits, (Except.ok.inj h).symm⟩
  · rintro ⟨hn, hfits, rfl⟩
    exact ⟨(), validate_eq_ok_iff.mpr ⟨hn, hfits⟩, rfl⟩

end Rows

end CairoTrace
