import CairoTrace.Component.SubsetSum
import CairoTrace.Proofs.Curve.Steps
import CairoTrace.Proofs.RowValue

/-!
# Slopes of tangents and chords

The slope of a line through points of the curve is a quotient. With a division that has no result
when the divisor is zero, the slopes of the tangents of repeated doublings and that of the line
through any two points of the curve come out as they do with a total division
(`checkedDoublingSteps_eq`, `CurvePoint.checkedSlope_eq`), as no point of the curve has zero as its
second coordinate. A line has a slope unless one of its points is at infinity or each is the
negative of the other, and the slope gives their sum (`CurvePoint.slopes_exact`).
-/

namespace CairoTrace

namespace Residue

variable {a b : Felt}

theorem div?_eq_some (hb : b ≠ 0) : a.div? b = some (a / b) := by
  rw [div?, inverse?, if_neg (mt (isZero_iff b).mp hb), Option.map_some]
  rfl

theorem div?_zero : a.div? 0 = none := by
  rw [div?, inverse?, if_pos ((isZero_iff 0).mpr rfl), Option.map_none]

end Residue

/-! ## Divisions that may have no result -/

namespace Point

/-- The slope of the tangent, if it is not a quotient by zero. -/
def tangent? (p : Point) : Option Felt :=
  (p.x * p.x + p.x * p.x + p.x * p.x + 1).div? (p.y + p.y)

/-- The slope of the chord, if it is not a quotient by zero. -/
def chord? (p q : Point) : Option Felt := (q.y - p.y).div? (q.x - p.x)

/-- The slope of the line through two points, which may have none, with nothing in place of a
quotient by zero. -/
def checkedSlope : Point → Point → Option (Option Felt)
  | affine x₁ y₁, affine x₂ y₂ =>
    if x₁ ≠ x₂ then (chord? (affine x₁ y₁) (affine x₂ y₂)).map some
    else if y₁ ≠ y₂ then some none
    else (tangent? (affine x₁ y₁)).map some
  | _, _ => some none

variable {p q : Point}

/-- Only a vertical tangent is a quotient by zero. -/
theorem tangent?_eq : p.tangent? = if p.tangentIsVertical then none else some p.tangent := by
  rw [tangent?]
  split
  · next hvertical =>
    rw [(Residue.isZero_iff p.y).mp hvertical, add_zero, Residue.div?_zero]
  · next hvertical =>
    rw [Residue.div?_eq_some (double_ne_zero (mt (Residue.isZero_iff p.y).mpr hvertical))]
    rfl

theorem chord?_eq (hx : p.x ≠ q.x) : p.chord? q = some (p.chord q) :=
  Residue.div?_eq_some (sub_ne_zero.mpr hx.symm)

/-- A line has no slope if a point is at infinity or the line is vertical. -/
theorem slope?_eq_none_iff :
    p.slope? q = none ↔ p = infinity ∨ q = infinity ∨ q.x = p.x ∧ q.y ≠ p.y := by
  cases p with
  | infinity => exact iff_of_true rfl (Or.inl rfl)
  | affine x₁ y₁ =>
    cases q with
    | infinity => exact iff_of_true rfl (Or.inr (Or.inl rfl))
    | affine x₂ y₂ =>
      simp only [slope?, reduceCtorEq, false_or, x, y]
      split
      · next hx => exact iff_of_false (Option.some_ne_none _) fun h => hx h.1.symm
      · next hx =>
        rw [not_not] at hx
        split
        · next hy => exact iff_of_true rfl ⟨hx.symm, Ne.symm hy⟩
        · next hy => exact iff_of_false (Option.some_ne_none _) fun h => hy (Ne.symm h.2)

/-- The slope of a line is a quotient by zero only if the line is a vertical tangent. -/
theorem checkedSlope_eq : checkedSlope p q =
    if p = q ∧ p ≠ infinity ∧ p.tangentIsVertical then none else some (p.slope? q) := by
  cases p with
  | infinity =>
    rw [if_neg fun h => h.2.1 rfl]
    rfl
  | affine x₁ y₁ =>
    cases q with
    | infinity =>
      rw [if_neg (by rintro ⟨⟨⟩, -⟩)]
      rfl
    | affine x₂ y₂ =>
      simp only [checkedSlope, slope?]
      split
      · next hx =>
        rw [if_neg fun h => hx (affine.inj h.1).1, chord?_eq (p := affine x₁ y₁) (q := affine x₂ y₂) hx,
          Option.map_some]
      · next hx =>
        split
        · next hy => rw [if_neg fun h => hy (affine.inj h.1).2]
        · next hy =>
          obtain rfl := not_not.mp hx
          obtain rfl := not_not.mp hy
          rw [tangent?_eq]
          simp only [ne_eq, reduceCtorEq, not_false_eq_true, true_and]
          split
          · rfl
          · rfl

/-- The sum of two points from the slope of the line through them. -/
theorem add_eq_join {s : Felt} (h : p.slope? q = some s) (hvertical : p.tangentIsVertical = false) :
    p + q = join s p q := by
  cases p with
  | infinity => cases h
  | affine x₁ y₁ =>
    cases q with
    | infinity => cases h
    | affine x₂ y₂ =>
      simp only [slope?] at h
      split at h
      · next hx =>
        obtain rfl := Option.some.inj h
        exact add_of_x_ne hx
      · next hx =>
        obtain rfl := not_not.mp hx
        split at h
        · cases h
        · next hy =>
          obtain rfl := not_not.mp hy
          obtain rfl := Option.some.inj h
          exact add_self_of_y_ne (mt (Residue.isZero_iff y₁).mpr (Bool.eq_false_iff.mp hvertical))

end Point

/-- The steps of repeated doublings, with nothing if the slope of one is a quotient by zero. -/
def checkedDoublingSteps : (n : Nat) → Point → Option (List DoublingStep)
  | 0, _ => some []
  | n + 1, p => do
    let slope ← p.tangent?
    let rest ← checkedDoublingSteps n p.double
    return ⟨p, slope⟩ :: rest

/-! ## The constraints on doublings -/

/-- The equations between a step and the point of the next one. -/
@[mk_iff]
structure DoublingStep.LeadsTo (d : DoublingStep) (next : Point) : Prop where
  slope : d.point.x * d.point.x * 3 + 1 = (d.point.y + d.point.y) * d.slope
  x : d.slope * d.slope = d.point.x + d.point.x + next.x
  y : d.point.y + next.y = d.slope * (d.point.x - next.x)

/-- The cells of a doubling have the values of a step, and the next ones the coordinates of a
point. -/
structure Doubling.Reads (d : Doubling) (value : Term → Felt) (step : DoublingStep)
    (next : Point) : Prop where
  x : value d.x.current = step.point.x
  y : value d.y.current = step.point.y
  slope : value d.slope.current = step.slope
  next_x : value d.x.next = next.x
  next_y : value d.y.next = next.y

/-- The constraints on a doubling are zero on a row exactly if its step leads to the next point. -/
theorem Doubling.Reads.onRow_eq_zero_iff {d : Doubling} {n row : Nat}
    {columns : List (Array Felt)} {periodic : List PeriodicColumn} {b : Bindings}
    {step : DoublingStep} {next : Point}
    (h : d.Reads (Term.onRow n columns periodic b row) step next) (label : String)
    (s : SubsetSum) :
    (∀ c ∈ d.constraints label s, c.expr.onRow n columns periodic b row = 0) ↔
      step.LeadsTo next := by
  simp only [constraints, SubsetSum.onSteps, List.forall_mem_cons, List.not_mem_nil,
    false_implies, implies_true, and_true, Term.onRow_sub, Term.onRow_mul, Term.onRow_add,
    Term.onRow_one, Term.onRow_ofNat, h.x, h.y, h.slope, h.next_x, h.next_y, sub_eq_zero,
    DoublingStep.leadsTo_iff]

/-- Two rows with a step and the next point. -/
theorem Doubling.reads_twoRows (step : DoublingStep) (next : Point) (b : Bindings) :
    Reads ⟨⟨0, 1, 0⟩, ⟨1, 1, 0⟩, ⟨2, 1, 0⟩⟩ (Term.onRow 2 [#[step.point.x, next.x],
      #[step.point.y, next.y], #[step.slope, 0]] [] b 0) step next :=
  ⟨rfl, rfl, rfl, rfl, rfl⟩

/-! ## Points of the curve -/

namespace CurvePoint

variable {P Q : CurvePoint}

theorem y_ne_zero (hP : P ≠ 0) : P.point.y ≠ 0 := by
  have honCurve := P.onCurve
  rw [point_eq_affine hP] at honCurve
  exact Point.y_ne_zero honCurve

theorem tangentIsVertical_eq (hP : P ≠ 0) : P.point.tangentIsVertical = false :=
  Bool.eq_false_iff.mpr (mt (Residue.isZero_iff _).mp (y_ne_zero hP))

theorem tangent?_point (hP : P ≠ 0) : P.point.tangent? = some P.point.tangent := by
  rw [Point.tangent?_eq, tangentIsVertical_eq hP]
  rfl

/-- The double of a point other than infinity is such a point. -/
theorem checkedDoublingSteps_eq (hP : P ≠ 0) (n : Nat) :
    checkedDoublingSteps n P.point = some (doublingSteps n P.point) := by
  induction n generalizing P with
  | zero => rfl
  | succ n ih =>
    have hrest : checkedDoublingSteps n P.point.double = some (doublingSteps n P.point.double) :=
      ih (P := P + P) (add_self_ne_zero hP)
    rw [checkedDoublingSteps, tangent?_point hP, hrest]
    rfl

theorem iterate_double_point (P : CurvePoint) (i : Nat) :
    Point.double^[i] P.point = (2 ^ i • P).point := by
  induction i with
  | zero => rw [pow_zero, one_nsmul, Function.iterate_zero_apply]
  | succ i ih =>
    rw [Function.iterate_succ_apply', ih, double_point, ← mul_nsmul', ← pow_succ']

/-- A step of a doubling has a multiple by a power of two, and the tangent there. -/
theorem getElem?_doublingSteps_eq_some_iff {n i : Nat} {step : DoublingStep} :
    (doublingSteps n P.point)[i]? = some step ↔
      i < n ∧ step = ⟨(2 ^ i • P).point, (2 ^ i • P).point.tangent⟩ := by
  rw [doublingSteps_eq_map, List.getElem?_map, Option.map_eq_some_iff]
  constructor
  · rintro ⟨k, hk, rfl⟩
    obtain ⟨hi, rfl⟩ := List.getElem?_eq_some_iff.mp hk
    rw [List.length_range] at hi
    exact ⟨hi, by rw [List.getElem_range]⟩
  · rintro ⟨hi, rfl⟩
    exact ⟨i, List.getElem?_range hi, rfl⟩

/-- The equations of a tangent lead from a multiple to the next one. -/
theorem leadsTo_two_pow_nsmul (hP : P ≠ 0) (i : Nat) :
    (⟨(2 ^ i • P).point, (2 ^ i • P).point.tangent⟩ : DoublingStep).LeadsTo
      (2 ^ (i + 1) • P).point := by
  rw [pow_succ, mul_two, add_nsmul]
  have ⟨hslope, hx, hy⟩ := tangent_add_self (two_pow_nsmul_ne_zero hP i)
  exact ⟨hslope, hx, hy⟩

/-! ## Two points -/

theorem eq_neg_iff (hP : P ≠ 0) (hQ : Q ≠ 0) :
    Q = -P ↔ Q.point.x = P.point.x ∧ Q.point.y = -P.point.y := by
  constructor
  · rintro rfl
    rw [neg_point, Point.x_neg, point_eq_affine hP]
    exact ⟨rfl, rfl⟩
  · rintro ⟨hx, hy⟩
    ext1
    rw [neg_point, point_eq_affine hQ, hx, hy, point_eq_affine hP]
    rfl

/-- Two points of the curve with one first coordinate are equal or negatives of each other. -/
theorem y_eq_or_eq_neg (hP : P ≠ 0) (hQ : Q ≠ 0) (hx : Q.point.x = P.point.x) :
    Q.point.y = P.point.y ∨ Q.point.y = -P.point.y := by
  have hPcurve := P.onCurve
  have hQcurve := Q.onCurve
  rw [point_eq_affine hP, Point.onCurve_affine_iff] at hPcurve
  rw [point_eq_affine hQ, Point.onCurve_affine_iff] at hQcurve
  rw [← mul_self_eq_mul_self_iff, hPcurve, hQcurve, hx]

theorem slope?_eq_none_iff : P.point.slope? Q.point = none ↔ P = 0 ∨ Q = 0 ∨ Q = -P := by
  have hzero (R : CurvePoint) : R.point = .infinity ↔ R = 0 :=
    ⟨fun h => CurvePoint.ext h, fun h => h ▸ rfl⟩
  rw [Point.slope?_eq_none_iff, hzero, hzero]
  refine or_congr_right' fun hP => or_congr_right' fun hQ => ?_
  rw [eq_neg_iff hP hQ]
  refine and_congr_right fun hx => ⟨(y_eq_or_eq_neg hP hQ hx).resolve_left, fun hy => ?_⟩
  rw [hy]
  exact (Point.ne_neg_of_ne_zero (y_ne_zero hP)).symm

theorem checkedSlope_eq (P Q : CurvePoint) :
    P.point.checkedSlope Q.point = some (P.point.slope? Q.point) := by
  rw [Point.checkedSlope_eq, if_neg]
  rintro ⟨-, hP, hvertical⟩
  rw [tangentIsVertical_eq fun h => hP (congrArg point h)] at hvertical
  cases hvertical

/-- Repeated doublings of a point of the curve other than infinity, and slopes of lines through two
points of the curve, divide by nothing that is zero. Step `i` of the doublings has the multiple of
the point by `2^i`, a point other than infinity, and satisfies the constraints on doublings with the
multiple by `2^(i+1)` as next point. There is no slope if and only if one of the points is at
infinity or each is the negative of the other, and otherwise the slope gives their sum. -/
theorem slopes_exact :
    (∀ P : CurvePoint, P ≠ 0 → ∀ n : Nat,
      checkedDoublingSteps n P.point = some (doublingSteps n P.point) ∧
      (doublingSteps n P.point).length = n ∧
      ∀ i step, (doublingSteps n P.point)[i]? = some step →
        step.point = (2 ^ i • P).point ∧ step.point = Point.double^[i] P.point ∧
        step.point ≠ .infinity ∧ step.point.onCurve = true ∧
        step.LeadsTo (2 ^ (i + 1) • P).point ∧
        ∀ (m row : Nat) (columns : List (Array Felt)) (periodic : List PeriodicColumn)
          (b : Bindings) (d : Doubling) (label : String) (s : SubsetSum),
          d.Reads (Term.onRow m columns periodic b row) step (2 ^ (i + 1) • P).point →
          ∀ c ∈ d.constraints label s, c.expr.onRow m columns periodic b row = 0) ∧
    ∀ P Q : CurvePoint,
      P.point.checkedSlope Q.point = some (P.point.slope? Q.point) ∧
      (P.point.slope? Q.point = none ↔ P = 0 ∨ Q = 0 ∨ Q = -P) ∧
      ∀ s, P.point.slope? Q.point = some s → ∃ x₃, x₃ = s * s - P.point.x - Q.point.x ∧
        (P + Q).point = .affine x₃ (s * (P.point.x - x₃) - P.point.y) := by
  refine ⟨fun P hP n => ⟨checkedDoublingSteps_eq hP n, ?_, fun i step hi => ?_⟩, fun P Q =>
    ⟨checkedSlope_eq P Q, slope?_eq_none_iff, fun s hs => ⟨_, rfl, ?_⟩⟩⟩
  · rw [doublingSteps_eq_map, List.length_map, List.length_range]
  · obtain ⟨-, rfl⟩ := getElem?_doublingSteps_eq_some_iff.mp hi
    have hleads := leadsTo_two_pow_nsmul hP i
    exact ⟨rfl, (iterate_double_point P i).symm,
      fun h => two_pow_nsmul_ne_zero hP i (CurvePoint.ext h), (2 ^ i • P).onCurve, hleads,
      fun m row columns periodic b d label s hreads =>
        (hreads.onRow_eq_zero_iff label s).mpr hleads⟩
  · have hP : P ≠ 0 := by
      rintro rfl
      cases hs
    exact Point.add_eq_join hs (tangentIsVertical_eq hP)

theorem slopes_exact_generator :
    let double := (2 ^ 1 • generator).point
    let next := (2 ^ (1 + 1) • generator).point
    let columns := [#[double.x, next.x], #[double.y, next.y], #[double.tangent, 0]]
    generator ≠ 0 ∧ (doublingSteps 2 generator.point)[1]? = some ⟨double, double.tangent⟩ ∧
      (∀ c ∈ Doubling.constraints ⟨⟨0, 1, 0⟩, ⟨1, 1, 0⟩, ⟨2, 1, 0⟩⟩ "doubling"
          (.ofColumns 3 4 5 6 1 252), c.expr.onRow 2 columns [] ⟨[], [], 0⟩ 0 = 0) ∧
      generator.point.slope? (-generator).point = none ∧
      ∃ s, generator.point.slope? shift.point = some s ∧ ∃ x₃,
        x₃ = s * s - generator.point.x - shift.point.x ∧
        (generator + shift).point = .affine x₃ (s * (generator.point.x - x₃) - generator.point.y) := by
  intro double next columns
  have hsecond := (getElem?_doublingSteps_eq_some_iff (P := generator)).mpr ⟨Nat.one_lt_two, rfl⟩
  have hchord : generator.point.slope? shift.point = some (generator.point.chord shift.point) := by
    decide +kernel
  obtain ⟨-, -, hsteps⟩ := slopes_exact.1 generator generator_ne_zero 2
  obtain ⟨-, -, -, -, -, hconstraints⟩ := hsteps 1 _ hsecond
  obtain ⟨-, hnone, -⟩ := slopes_exact.2 generator (-generator)
  obtain ⟨-, -, hsome⟩ := slopes_exact.2 generator shift
  refine ⟨generator_ne_zero, hsecond, ?_, hnone.mpr (.inr (.inr rfl)), _, hchord, hsome _ hchord⟩
  exact hconstraints 2 0 columns [] _ _ _ _
    (Doubling.reads_twoRows ⟨double, double.tangent⟩ next ⟨[], [], 0⟩)

end CurvePoint

end CairoTrace
