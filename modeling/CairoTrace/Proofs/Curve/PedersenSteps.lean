import CairoTrace.Proofs.Curve.DigitSums
import CairoTrace.Proofs.Curve.SumSteps

/-!
# The steps of a hash

The rows of an operand add multiples of two points by powers of two, the second one for the four
highest digits (`Pedersen.digitPoints_eq_map`). Together they add what the operand adds to the hash
(`Pedersen.digitSum_digitPoint`), so that the witness of an instance ends at the hash
(`Pedersen.Params.OnCurve.hash_eq`, `Pedersen.Witness.Computes`).
-/

namespace CairoTrace.Pedersen

open CurvePoint (digitSum)

/-! ## The points of an operand -/

/-- The point that the digit `k` of an operand adds. -/
def digitPoint (low high : CurvePoint) (k : Nat) : CurvePoint :=
  if k < lowBits then 2 ^ k • low else if k < inputBits then 2 ^ (k - lowBits) • high else 0

variable {low high : CurvePoint}

theorem digitPoint_low {k : Nat} (hk : k < lowBits) : digitPoint low high k = 2 ^ k • low :=
  if_pos hk

theorem digitPoint_high {k : Nat} (hk : k < highBits) :
    digitPoint low high (lowBits + k) = 2 ^ k • high := by
  have hlow : ¬ lowBits + k < lowBits := Nat.not_lt.mpr (Nat.le_add_right _ _)
  have hinput : lowBits + k < inputBits := Nat.add_lt_add_left hk _
  rw [digitPoint, if_neg hlow, if_pos hinput, Nat.add_sub_cancel_left]

theorem digitPoint_tail (k : Nat) : digitPoint low high (inputBits + k) = 0 := by
  have hinput : ¬ inputBits + k < inputBits := Nat.not_lt.mpr (Nat.le_add_right _ _)
  have hlow : ¬ inputBits + k < lowBits := fun h => hinput (h.trans (by decide))
  rw [digitPoint, if_neg hlow, if_neg hinput]

/-- The points of digits are finite if those that they are multiples of are. -/
theorem digitPoint_ne_zero (hlow : low ≠ 0) (hhigh : high ≠ 0) {k : Nat} (hk : k < inputBits) :
    digitPoint low high k ≠ 0 := by
  by_cases hlt : k < lowBits
  · rw [digitPoint_low hlt]
    exact CurvePoint.two_pow_nsmul_ne_zero hlow k
  · rw [digitPoint, if_neg hlt, if_pos hk]
    exact CurvePoint.two_pow_nsmul_ne_zero hhigh _

theorem doublings_eq_map (n : Nat) (P : CurvePoint) :
    doublings n P.point = (List.range n).map fun k => (2 ^ k • P).point := by
  induction n generalizing P with
  | zero => rfl
  | succ n ih =>
    rw [doublings, double_point, ih, List.range_succ_eq_map, List.map_cons, List.map_map, pow_zero,
      one_nsmul]
    simp only [Function.comp_def, pow_succ, mul_nsmul']

theorem digitPoints_eq_map (low high : CurvePoint) : digitPoints low.point high.point =
    (List.range stepsPerInput).map fun k => (digitPoint low high k).point := by
  have hsteps : stepsPerInput = lowBits + highBits + (stepsPerInput - inputBits) := rfl
  have hlow (k : Nat) (hk : k ∈ List.range lowBits) :
      (digitPoint low high k).point = (2 ^ k • low).point := by
    rw [digitPoint_low (List.mem_range.mp hk)]
  have hhigh (k : Nat) (hk : k ∈ List.range highBits) :
      (digitPoint low high (lowBits + k)).point = (2 ^ k • high).point := by
    rw [digitPoint_high (List.mem_range.mp hk)]
  have htail (k : Nat) : (digitPoint low high (lowBits + highBits + k)).point = .infinity :=
    congrArg CurvePoint.point (digitPoint_tail k)
  rw [digitPoints, doublings_eq_map, doublings_eq_map, hsteps, List.range_add, List.range_add,
    List.map_append, List.map_append, List.map_map, List.map_map, List.map_congr_left hlow]
  simp only [Function.comp_def, htail, List.map_congr_left hhigh, List.map_const',
    List.length_range]
  rfl

/-- All digits of an operand add its low part times one point and its high part times another. -/
theorem digitSum_digitPoint (P low high : CurvePoint) {v : Nat} (hv : v < 2 ^ inputBits) :
    digitSum P (digitPoint low high) v stepsPerInput =
      P + ((v % 2 ^ lowBits) • low + (v / 2 ^ lowBits) • high) := by
  have hsteps : stepsPerInput = lowBits + highBits + (stepsPerInput - inputBits) := rfl
  have hdiv : v / 2 ^ lowBits % 2 ^ highBits = v / 2 ^ lowBits := by
    refine Nat.mod_eq_of_lt (Nat.div_lt_of_lt_mul ?_)
    rwa [← pow_add]
  have hlow : ∑ j ∈ Finset.range lowBits, (v.testBit j).toNat • digitPoint low high j =
      (v % 2 ^ lowBits) • low := by
    rw [← CurvePoint.sum_testBit_nsmul]
    exact Finset.sum_congr rfl fun j hj => by rw [digitPoint_low (Finset.mem_range.mp hj)]
  have hhigh : ∑ j ∈ Finset.range highBits,
      (v.testBit (lowBits + j)).toNat • digitPoint low high (lowBits + j) =
        (v / 2 ^ lowBits) • high := by
    rw [← hdiv, ← CurvePoint.sum_testBit_nsmul]
    refine Finset.sum_congr rfl fun j hj => ?_
    rw [digitPoint_high (Finset.mem_range.mp hj), Nat.testBit_div_two_pow, add_comm lowBits]
  have htail (j : Nat) : (v.testBit (lowBits + highBits + j)).toNat •
      digitPoint low high (lowBits + highBits + j) = 0 := by
    rw [show lowBits + highBits = inputBits from rfl, digitPoint_tail, smul_zero]
  rw [digitSum, hsteps, Finset.sum_range_add, Finset.sum_range_add, hlow, hhigh,
    Finset.sum_eq_zero fun j _ => htail j, add_zero]

theorem operandPoint_eq (low high : CurvePoint) (v : Felt) : operandPoint low.point high.point v =
    ((v.val % 2 ^ lowBits) • low + (v.val / 2 ^ lowBits) • high).point := by
  have hlow : v.val % 2 ^ lowBits < curveOrder :=
    (Nat.mod_lt _ (Nat.two_pow_pos _)).trans (by decide)
  have hhigh : v.val / 2 ^ lowBits < curveOrder :=
    (Nat.div_lt_of_lt_mul (v.isLt.trans (by decide : starkPrime < 2 ^ lowBits * 2 ^ 4))).trans
      (by decide)
  rw [operandPoint, CurvePoint.mul_point, CurvePoint.mul_point, Nat.one_shiftLeft,
    Nat.shiftRight_eq_div_pow, CurvePoint.add_point]
  congr 3
  · exact Nat.mod_eq_of_lt hlow
  · exact Nat.mod_eq_of_lt hhigh

/-! ## Steps -/

/-- The step of a sum that uses the digit `k`. -/
def step (P : CurvePoint) (q : Nat → CurvePoint) (v k : Nat) : Step where
  point := (digitSum P q v k).point
  suffix := .ofNat (v >>> k)
  slope := if (v >>> k) % 2 = 1 then
    ((digitSum P q v k).point.y - (q k).point.y) / ((digitSum P q v k).point.x - (q k).point.x)
    else 0

variable (P : CurvePoint) (q : Nat → CurvePoint) (v : Nat)

theorem digitSum_succ_point (k : Nat) : (digitSum P q v (k + 1)).point =
    if (v >>> k) % 2 = 1 then (digitSum P q v k).point + (q k).point
    else (digitSum P q v k).point := by
  simp only [shiftRight_mod_two]
  cases hbit : v.testBit k with
  | true => rw [if_pos rfl, CurvePoint.digitSum_succ_of_testBit hbit, CurvePoint.add_point]
  | false => rw [if_neg Bool.false_ne_true, CurvePoint.digitSum_succ_of_not_testBit hbit]

/-- The steps of a sum from the digit `i` on. -/
theorem stepsFrom_eq_ok_iff {first n i : Nat} {steps : List Step} :
    stepsFrom v first i ((List.range' i n).map fun k => (q k).point) (digitSum P q v i).point =
        .ok steps ↔
      (∀ k, i ≤ k → k < i + n → v.testBit k = true →
        (digitSum P q v k).point.x ≠ (q k).point.x) ∧
      steps = (List.range' i n).map (step P q v) := by
  induction n generalizing i steps with
  | zero =>
    have hnone (k : Nat) (hle : i ≤ k) (hlt : k < i + 0) (_ : v.testBit k = true) :
        (digitSum P q v k).point.x ≠ (q k).point.x := by omega
    rw [and_iff_right hnone, List.range'_zero, List.map_nil, List.map_nil, stepsFrom,
      Except.ok.injEq]
    exact eq_comm
  | succ n ih =>
    have hstop : i + 1 + n = i + (n + 1) := by omega
    rw [List.range'_succ, List.map_cons, stepsFrom_cons_eq_ok_iff, ← digitSum_succ_point]
    simp only [ih, List.map_cons, hstop]
    have hset := shiftRight_mod_two v i
    constructor
    · rintro ⟨hfirst, tail, ⟨havoids, rfl⟩, rfl⟩
      refine ⟨fun k hle hlt hbit => ?_, rfl⟩
      rcases Nat.eq_or_lt_of_le hle with rfl | hlt'
      · exact fun hx => hfirst ⟨hset.mpr hbit, hx⟩
      · exact havoids k hlt' hlt hbit
    · rintro ⟨havoids, rfl⟩
      refine ⟨fun hfirst => ?_, _, ⟨fun k hle hlt hbit => ?_, rfl⟩, rfl⟩
      · exact havoids i le_rfl (by omega) (hset.mp hfirst.1) hfirst.2
      · exact havoids k (Nat.le_of_succ_le hle) hlt hbit

/-- The last step adds nothing, as its digit is not set. -/
theorem lastPoint_map_step (hv : v < 2 ^ inputBits) :
    lastPoint ((List.range stepsPerInput).map (step P q v)) =
      (digitSum P q v stepsPerInput).point := by
  have hlast : stepsPerInput = stepsPerInput - 1 + 1 := rfl
  have hlt : v < 2 ^ (stepsPerInput - 1) := hv.trans (by decide)
  rw [lastPoint, hlast, List.range_succ, List.map_append, List.map_singleton,
    List.getLast?_append_of_ne_nil _ (List.cons_ne_nil _ _),
    CurvePoint.digitSum_succ_of_lt hlt]
  rfl

/-! ## Hashes -/

/-- The points that a hash is defined over, when they are finite points of the curve. -/
structure Params.OnCurve (params : Params) where
  shift : CurvePoint
  aLow : CurvePoint
  aHigh : CurvePoint
  bLow : CurvePoint
  bHigh : CurvePoint
  shift_eq : params.shift = shift.point
  aLow_eq : params.aLow = aLow.point
  aHigh_eq : params.aHigh = aHigh.point
  bLow_eq : params.bLow = bLow.point
  bHigh_eq : params.bHigh = bHigh.point
  ne_zero : ∀ P ∈ [shift, aLow, aHigh, bLow, bHigh], P ≠ 0

namespace Params

variable {params : Params}

theorem nonempty_onCurve
    (h : ∀ p ∈ [params.shift, params.aLow, params.aHigh, params.bLow, params.bHigh],
      p ≠ .infinity ∧ p.onCurve = true) : Nonempty params.OnCurve := by
  have hne {p : Point} {honCurve : p.onCurve = true} (hp : p ≠ .infinity) :
      (⟨p, honCurve⟩ : CurvePoint) ≠ 0 := fun hzero => hp (congrArg CurvePoint.point hzero)
  simp only [List.forall_mem_cons, List.not_mem_nil, false_implies, implies_true, and_true] at h
  obtain ⟨⟨hshift, hshift'⟩, ⟨haLow, haLow'⟩, ⟨haHigh, haHigh'⟩, ⟨hbLow, hbLow'⟩, hbHigh,
    hbHigh'⟩ := h
  refine ⟨⟨⟨_, hshift'⟩, ⟨_, haLow'⟩, ⟨_, haHigh'⟩, ⟨_, hbLow'⟩, ⟨_, hbHigh'⟩, rfl, rfl, rfl, rfl,
    rfl, ?_⟩⟩
  simp only [List.forall_mem_cons, List.not_mem_nil, false_implies, implies_true, and_true]
  exact ⟨hne hshift, hne haLow, hne haHigh, hne hbLow, hne hbHigh⟩

namespace OnCurve

/-- The points that the digits of the first operand add. -/
def aPoint (c : params.OnCurve) : Nat → CurvePoint := digitPoint c.aLow c.aHigh

def bPoint (c : params.OnCurve) : Nat → CurvePoint := digitPoint c.bLow c.bHigh

/-- The sum after the first operand. -/
def middle (c : params.OnCurve) (a : Felt) : CurvePoint :=
  digitSum c.shift c.aPoint a.val stepsPerInput

/-- The point that the digit `k` of the operand `j` adds. -/
def stepPoint (c : params.OnCurve) (j k : Nat) : CurvePoint :=
  if j = 0 then c.aPoint k else c.bPoint k

/-- The points that are added are finite. -/
theorem stepPoint_ne_zero (c : params.OnCurve) (j : Nat) {v : Nat} (hv : v < 2 ^ inputBits)
    {k : Nat} (hbit : v.testBit k = true) : c.stepPoint j k ≠ 0 := by
  have hk : k < inputBits := by
    by_contra hle
    have hlt := hv.trans_le (Nat.pow_le_pow_right two_pos (Nat.not_lt.mp hle))
    rw [Nat.testBit_lt_two_pow hlt] at hbit
    cases hbit
  have hne := c.ne_zero
  simp only [List.forall_mem_cons] at hne
  obtain ⟨-, haLow, haHigh, hbLow, hbHigh, -⟩ := hne
  unfold stepPoint
  split
  · exact digitPoint_ne_zero haLow haHigh hk
  · exact digitPoint_ne_zero hbLow hbHigh hk

/-- The rows of both operands have the points that their digits add. -/
theorem getElem?_rows (c : params.OnCurve) {j k : Nat} (hj : j < 2) (hk : k < stepsPerInput) :
    params.rows[stepsPerInput * j + k]? = some (c.stepPoint j k).point := by
  have hlength (low high : CurvePoint) :
      (digitPoints low.point high.point).length = stepsPerInput := by
    rw [digitPoints_eq_map, List.length_map, List.length_range]
  have hpoint (low high : CurvePoint) : (digitPoints low.point high.point)[k]? =
      some (digitPoint low high k).point := by
    rw [digitPoints_eq_map, List.getElem?_map, List.getElem?_range hk, Option.map_some]
  rw [rows, params.aRows_eq, params.bRows_eq, c.aLow_eq, c.aHigh_eq, c.bLow_eq, c.bHigh_eq]
  interval_cases j
  · rw [mul_zero, zero_add, List.getElem?_append_left (hk.trans_eq (hlength _ _).symm), hpoint]
    rfl
  · rw [mul_one, List.getElem?_append_right (by rw [hlength]; exact Nat.le_add_right _ _), hlength,
      Nat.add_sub_cancel_left, hpoint]
    rfl

/-- The sum over both operands leads to the hash. -/
theorem hash_eq (c : params.OnCurve) (a b : Felt) :
    hash params a b = (digitSum (c.middle a) c.bPoint b.val stepsPerInput).point.x := by
  have hlt (v : Felt) : v.val < 2 ^ inputBits := v.isLt.trans (by decide)
  rw [hash, c.shift_eq, c.aLow_eq, c.aHigh_eq, c.bLow_eq, c.bHigh_eq, operandPoint_eq,
    operandPoint_eq, bPoint, digitSum_digitPoint _ _ _ (hlt b), middle, aPoint,
    digitSum_digitPoint _ _ _ (hlt a)]
  rfl

end OnCurve

end Params

end CairoTrace.Pedersen
