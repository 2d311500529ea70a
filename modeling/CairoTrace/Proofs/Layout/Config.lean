import CairoTrace.Layout.Config
import CairoTrace.Proofs.Result

/-!
# Valid configurations

The configurations that pass validation have ratios that are powers of two and large enough for an
instance of the builtin (`LayoutConfig.validate_eq_ok_iff`).
-/

namespace CairoTrace

namespace LayoutConfig

theorem checkRatio_eq_ok_iff {b : Builtin} {least ratio : Nat} :
    checkRatio b least ratio = .ok () ↔ isPowerOfTwo ratio = true ∧ least ≤ ratio := by
  rw [checkRatio]
  split <;> simp_all

theorem checkRangeCheck_eq_ok_iff {r : RangeCheckConfig} :
    checkRangeCheck r = .ok () ↔ (isPowerOfTwo r.ratio = true ∧ 1 ≤ r.ratio) ∧
      isPowerOfTwo r.parts = true ∧ r.parts ≤ r.ratio * cycleHeight := by
  rw [checkRangeCheck, Result.check_bind_eq_ok_iff, checkRatio_eq_ok_iff]
  refine and_congr_right fun _ => ?_
  split
  · next h =>
    simp only [Result.throw_eq_error, reduceCtorEq, false_iff, not_and, not_le]
    intro hparts
    exact h.resolve_left (not_not.mpr hparts)
  · next h =>
    simp only [Result.pure_eq_ok, true_iff]
    rwa [not_or, not_not, not_lt] at h

theorem checkDilution_eq_ok_iff {d : Dilution} : checkDilution d = .ok () ↔ isUsable d = true := by
  rw [checkDilution]
  split <;> simp_all

theorem isUsable_iff {d : Dilution} : isUsable d = true ↔ 0 < d.spacing ∧ 0 < d.bits ∧
    d.bits ≤ 32 ∧ d.chunkBits ≤ 256 ∧ 0 < d.totalBits ∧ d.totalBits < 252 := by
  simp only [isUsable, Bool.and_eq_true, decide_eq_true_eq, and_assoc]

/-- The condition for a configuration to have layouts. -/
structure Valid (c : LayoutConfig) : Prop where
  keccak : c.keccak = none
  poseidon : c.poseidon = none
  pedersen : ∀ ratio, c.pedersen = some ratio → isPowerOfTwo ratio = true ∧ 32 ≤ ratio
  rangeCheck : ∀ r, c.rangeCheck = some r → (isPowerOfTwo r.ratio = true ∧ 1 ≤ r.ratio) ∧
    isPowerOfTwo r.parts = true ∧ r.parts ≤ r.ratio * cycleHeight
  ecdsa : ∀ ratio, c.ecdsa = some ratio → isPowerOfTwo ratio = true ∧ 32 ≤ ratio
  ecOp : ∀ ratio, c.ecOp = some ratio → isPowerOfTwo ratio = true ∧ 16 ≤ ratio
  bitwise : ∀ b, c.bitwise = some b → isPowerOfTwo b.ratio = true ∧ 4 ≤ b.ratio
  dilution : ∀ d, c.dilution = some d → isUsable d = true

theorem validate_eq_ok_iff {c : LayoutConfig} : c.validate = .ok () ↔ c.Valid := by
  simp only [validate, Result.throw_bind, Result.ite_error_eq_ok_iff, Result.check_bind_eq_ok_iff,
    Result.option_forM_eq_ok_iff, checkRatio_eq_ok_iff, checkRangeCheck_eq_ok_iff,
    checkDilution_eq_ok_iff, Option.not_isSome_iff_eq_none]
  constructor
  · rintro ⟨hkeccak, hposeidon, hpedersen, hrange, hecdsa, hecOp, hbitwise, hdilution⟩
    exact ⟨hkeccak, hposeidon, hpedersen, hrange, hecdsa, hecOp, hbitwise, hdilution⟩
  · rintro ⟨hkeccak, hposeidon, hpedersen, hrange, hecdsa, hecOp, hbitwise, hdilution⟩
    exact ⟨hkeccak, hposeidon, hpedersen, hrange, hecdsa, hecOp, hbitwise, hdilution⟩

/-- A layout has columns for diluted numbers if and only if it has the bitwise builtin. -/
theorem isSome_dilution (c : LayoutConfig) : c.dilution.isSome = c.bitwise.isSome := by
  rw [dilution, Option.isSome_map]

end LayoutConfig

end CairoTrace
