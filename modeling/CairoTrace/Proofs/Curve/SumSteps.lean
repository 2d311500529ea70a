import CairoTrace.Proofs.Curve.StepCounts
import CairoTrace.Proofs.Curve.Steps
import CairoTrace.Proofs.StarkField

/-!
# The steps of a sum

A sum over the multiples of a point by powers of two has a trace exactly if it avoids their first
coordinates, the last one apart. Its steps are then those that the group law gives
(`CurvePoint.sumStepsFrom_eq_ok_iff`).
-/

namespace CairoTrace

theorem feltOfWord_eq_ok_iff {w : Word} {a : Felt} : feltOfWord w = .ok a ↔ w = a.val := by
  rw [feltOfWord, Result.mapError_eq_ok_iff, ← Residue.ofCanonical?_eq_some_iff, residueOf]
  split
  · next b hb => rw [hb, Except.ok.injEq, Option.some.injEq]
  · next hb =>
    rw [hb]
    exact iff_of_false (fun h => by cases h) (fun h => by cases h)

theorem shiftRight_mod_two (m k : Nat) : (m >>> k) % 2 = 1 ↔ m.testBit k = true := by
  rw [Nat.testBit_eq_decide_div_mod_eq, decide_eq_true_eq, Nat.shiftRight_eq_div_pow]

/-- Words that are the coordinates of a point of the curve. -/
theorem Point.ofWords_eq_ok_iff {x y : Word} {p : Point} : Point.ofWords x y = .ok p ↔
    ∃ P : CurvePoint, P ≠ 0 ∧ P.point = p ∧ x = p.x.val ∧ y = p.y.val := by
  rw [Point.ofWords]
  constructor
  · intro h
    split at h
    · next a b ha hb =>
      split at h
      · next honCurve =>
        obtain rfl := Except.ok.inj h
        exact ⟨⟨_, honCurve⟩, CurvePoint.ne_zero_of_point_eq rfl, rfl,
          Residue.ofCanonical?_eq_some_iff.mp ha, Residue.ofCanonical?_eq_some_iff.mp hb⟩
      · cases h
    · cases h
  · rintro ⟨P, hP, rfl, rfl, rfl⟩
    have honCurve := P.onCurve
    rw [CurvePoint.point_eq_affine hP] at honCurve
    rw [Residue.ofCanonical?_eq_some_iff.mpr rfl, Residue.ofCanonical?_eq_some_iff.mpr rfl]
    dsimp only
    rw [if_pos honCurve, ← CurvePoint.point_eq_affine hP]

theorem Point.ofWords_point {P : CurvePoint} (hP : P ≠ 0) :
    Point.ofWords P.point.x.val P.point.y.val = .ok P.point :=
  Point.ofWords_eq_ok_iff.mpr ⟨P, hP, rfl, rfl, rfl⟩

namespace CurvePoint

variable (P Q : CurvePoint) (m : Nat)

/-- The step of a sum that uses the digit `k`. The step before `stop` is the last one and has no
inverse. -/
def sumStep (stop k : Nat) : SumStep :=
  let xDiffInv := if k + 1 = stop then 0 else ((sumBefore P Q m k).point.x - (2 ^ k • Q).point.x)⁻¹
  { point := (sumBefore P Q m k).point
    suffix := .ofNat (m >>> k)
    slope := if (m >>> k) % 2 = 1 then
      ((sumBefore P Q m k).point.y - (2 ^ k • Q).point.y) * xDiffInv else 0
    xDiffInv }

theorem sumBefore_succ_point (k : Nat) : (sumBefore P Q m (k + 1)).point =
    if (m >>> k) % 2 = 1 then (sumBefore P Q m k).point + (2 ^ k • Q).point
    else (sumBefore P Q m k).point := by
  rw [sumBefore_succ]
  by_cases hbit : m.testBit k = true
  · rw [if_pos ((shiftRight_mod_two m k).mpr hbit), hbit, Bool.toNat_true, one_nsmul, add_point]
  · rw [if_neg (mt (shiftRight_mod_two m k).mp hbit), Bool.eq_false_iff.mpr hbit, Bool.toNat_false,
      zero_nsmul, add_zero]

/-- The steps of a sum from the digit `i` on, and what it leads to. -/
theorem sumStepsFrom_eq_ok_iff {n i : Nat} {steps : List SumStep} {last : Point} :
    sumStepsFrom m i ((List.range' i n).map fun k => (2 ^ k • Q).point)
        (sumBefore P Q m i).point = .ok (steps, last) ↔
      (∀ k, i ≤ k → k + 1 < i + n → (sumBefore P Q m k).point.x ≠ (2 ^ k • Q).point.x) ∧
      steps = (List.range' i n).map (sumStep P Q m (i + n)) ∧
      last = (sumBefore P Q m (i + n)).point := by
  induction n generalizing i steps with
  | zero =>
    have hnone (k : Nat) (hle : i ≤ k) (hlt : k + 1 < i + 0) :
        (sumBefore P Q m k).point.x ≠ (2 ^ k • Q).point.x := by omega
    rw [and_iff_right hnone, List.range'_zero, List.map_nil, List.map_nil, sumStepsFrom,
      Except.ok.injEq, Prod.mk.injEq]
    exact and_congr eq_comm eq_comm
  | succ n ih =>
    have hrest : (List.range' (i + 1) n).map (fun k => (2 ^ k • Q).point) = [] ↔
        i + 1 = i + (n + 1) := by
      rw [List.map_eq_nil_iff, List.range'_eq_nil_iff]
      omega
    have hstop : i + 1 + n = i + (n + 1) := by omega
    rw [List.range'_succ, List.map_cons, sumStepsFrom_cons_eq_ok_iff, ← sumBefore_succ_point]
    simp only [ih, hrest, ne_eq, List.map_cons, hstop]
    constructor
    · rintro ⟨hfirst, tail, ⟨havoids, rfl, rfl⟩, rfl⟩
      refine ⟨fun k hle hlt => ?_, rfl, rfl⟩
      rcases Nat.eq_or_lt_of_le hle with rfl | hlt'
      · exact fun hx => hfirst ⟨by omega, hx⟩
      · exact havoids k hlt' hlt
    · rintro ⟨havoids, rfl, rfl⟩
      refine ⟨fun hfirst => ?_, _, ⟨fun k hle hlt => ?_, rfl, rfl⟩, rfl⟩
      · have hne := hfirst.1
        exact havoids i le_rfl (by omega) hfirst.2
      · exact havoids k (Nat.le_of_succ_le hle) hlt

theorem sumSteps_eq_ok_iff {n : Nat} {steps : List SumStep} {last : Point} :
    sumSteps m ((List.range n).map fun k => (2 ^ k • Q).point) P.point = .ok (steps, last) ↔
      (∀ k, k + 1 < n → (sumBefore P Q m k).point.x ≠ (2 ^ k • Q).point.x) ∧
      steps = (List.range n).map (sumStep P Q m n) ∧ last = (sumBefore P Q m n).point := by
  have hfrom : sumStepsFrom m 0 ((List.range' 0 n).map fun k => (2 ^ k • Q).point)
      (sumBefore P Q m 0).point = .ok (steps, last) ↔ _ := sumStepsFrom_eq_ok_iff P Q m
  simp only [sumBefore_zero, zero_add, Nat.zero_le, true_implies, ← List.range_eq_range'] at hfrom
  exact hfrom

end CurvePoint

end CairoTrace
