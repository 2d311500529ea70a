import CairoTrace.Proofs.Completeness.PointSum
import CairoTrace.Proofs.Layout.Assembly

/-!
# Soundness of multiples of a point

The constraints of an instance are equations between its cells and its values in memory
(`EcOpCells.holdOnInstance_iff`). When the first two points in memory are on the curve, the third is
the first one with a multiple of the second added to it
(`EcOpCells.add_nsmul_eq_of_holdOnInstance`). The multiplier is the representative of the scalar in
memory: the digits of no other number with the same residue are unpacked.
-/

namespace CairoTrace

open SubsetSum (steps)

namespace EcOpCells

/-- A value in the memory of an instance: the coordinates of two points, the multiplier and the
coordinates of the result. -/
def valueAt (cells : EcOpCells) (columns : List (Array Felt)) (i k : Nat) : Felt :=
  cells.memory.valueColumn.cellAt columns (memoryPlaces * i + k)

/-- The cells of the point that an instance doubles. -/
def pointAt (cells : EcOpCells) (columns : List (Array Felt)) (i : Nat) : DoubledPoint :=
  cells.doubling.pointAt columns i

def sumAt (cells : EcOpCells) (columns : List (Array Felt)) (i : Nat) : PointSum :=
  cells.sum.sumAt columns i

/-- An instance doubles its second point on every step, and adds it to its first one if the digit of
the step is set. -/
@[mk_iff]
structure Multiplies (cells : EcOpCells) (columns : List (Array Felt)) (i : Nat) : Prop where
  doubles : (cells.pointAt columns i).Doubles
  q_x : cells.valueAt columns i 2 = (cells.pointAt columns i).x 0
  q_y : cells.valueAt columns i 3 = (cells.pointAt columns i).y 0
  unpacks : (cells.sumAt columns i).Unpacks (cells.unpacking.cellAt columns (steps * i))
    (cells.unpacking.cellAt columns (steps * i + 1))
  extracts : (cells.sumAt columns i).Extracts EcOp.scalarBits
  adds : (cells.sumAt columns i).Adds (cells.pointAt columns i).x (cells.pointAt columns i).y
  xDiffInv : ∀ k, k + 1 < steps → cells.xDiffInv.cellAt columns (steps * i + k) *
    ((cells.sumAt columns i).x k - (cells.pointAt columns i).x k) = 1
  scalar : (cells.sumAt columns i).suffix 0 = cells.valueAt columns i 4
  p_x : cells.valueAt columns i 0 = (cells.sumAt columns i).x 0
  p_y : cells.valueAt columns i 1 = (cells.sumAt columns i).y 0
  r_x : cells.valueAt columns i 5 = (cells.sumAt columns i).x (steps - 1)
  r_y : cells.valueAt columns i 6 = (cells.sumAt columns i).y (steps - 1)

/-- The constraints that are not on addresses. -/
def pointConstraints (cells : EcOpCells) : List Constraint :=
  cells.constraints.drop cells.addressConstraints.length

theorem constraints_eq (cells : EcOpCells) :
    cells.constraints = cells.addressConstraints ++ cells.pointConstraints := by
  simp only [pointConstraints, constraints, List.append_assoc, List.drop_left]

variable {cells : EcOpCells} {n i : Nat} {columns : List (Array Felt)}
  {periodic : List PeriodicColumn} {b : Bindings}

/-! ## Rows -/

section Instance

variable (hn : isPowerOfTwo n = true) (hword : n < 2 ^ 64) (h : cells.IsArranged n)
  (hi : i < n / cells.height)
include hn h hi

theorem holdsOnInstance_every_iff {name : String} {e : Term} :
    (⟨name, e, .every cells.height 0, []⟩ : Constraint).HoldsOnInstance
      n columns periodic b cells.height i ↔ e.onRow n columns periodic b (cells.height * i) = 0 :=
  Constraint.holdsOnInstance_every_iff hn (SubsetSum.isPowerOfTwo_height h.isPowerOfTwo_step)
    h.height_le hi (pos_of_isPowerOfTwo (SubsetSum.isPowerOfTwo_height h.isPowerOfTwo_step))

include hword

theorem onRow_value {k : Nat} (hk : k < memoryPlaces) :
    (cells.memory.valueColumn.cell k).onRow n columns periodic b (cells.height * i) =
      cells.valueAt columns i k := by
  have hheight : cells.height = 256 * cells.sum.step := rfl
  have hcount : memoryPlaces * (cells.height / memoryPlaces) = cells.height :=
    Nat.mul_div_cancel' ⟨32 * cells.sum.step, by rw [hheight, memoryPlaces]; ring⟩
  have hle := h.height_le
  have hrow : (cells.memory.valueColumn.cell k).onRow n columns periodic b
      (cells.height / memoryPlaces * (memoryPlaces * i + 0)) =
        cells.memory.valueColumn.cellAt columns (memoryPlaces * i + (0 + k)) :=
    Term.onRow_later_of_instance (c := cells.memory.valueColumn) hn
      (SubsetSum.isPowerOfTwo_height h.isPowerOfTwo_step) h.height_le hi hcount
      (by rw [memoryPlaces] at *; omega) ⟨h.memory.step_eq, h.memory.offset_succ_lt⟩ (by omega)
  rw [zero_add, add_zero, ← mul_assoc, mul_comm (_ / _), hcount] at hrow
  exact hrow

/-- The constraints on points are equations between the cells of an instance. -/
theorem pointConstraints_holdOnInstance_iff : (∀ c ∈ cells.pointConstraints,
      c.HoldsOnInstance n columns periodic b cells.height i) ↔ cells.Multiplies columns i := by
  have hstep := h.isPowerOfTwo_step
  have hle : cells.sum.height ≤ n := h.height_le
  have hvalue {k : Nat} (hk : k < memoryPlaces) :
      (cells.memory.valueColumn.cell k).onRow n columns periodic b (cells.height * i) = _ :=
    onRow_value hn hword h hi hk
  have hfirst {c : VirtualColumn} (hc : c.StartsSteps cells.sum.step) {j : Nat} (hj : j < steps) :
      (c.cell j).onRow n columns periodic b (cells.height * i) = c.cellAt columns (steps * i + j) :=
    SubsetSum.onRow_first hn hword hstep hle hi hc hj
  have hcurrent {c : VirtualColumn} (hc : c.StartsSteps cells.sum.step) :
      c.current.onRow n columns periodic b (cells.height * i) = c.cellAt columns (steps * i + 0) :=
    hfirst (j := 0) hc (by decide)
  have hpointX (k : Nat) (hk : k + 1 < steps) :
      cells.doubling.x.current.onRow n columns periodic b (cells.sum.step * (steps * i + k)) =
        (cells.pointAt columns i).x k :=
    SubsetSum.onRow_current hn hword hstep hle hi h.doubling.x (Nat.lt_of_succ_lt hk)
  have hpointY (k : Nat) (hk : k + 1 < steps) :
      cells.doubling.y.current.onRow n columns periodic b (cells.sum.step * (steps * i + k)) =
        (cells.pointAt columns i).y k :=
    SubsetSum.onRow_current hn hword hstep hle hi h.doubling.y (Nat.lt_of_succ_lt hk)
  have hsum {label : String} : (∀ c ∈ cells.sum.constraints label cells.doubling.x.current
      cells.doubling.y.current, c.HoldsOnInstance n columns periodic b cells.height i) ↔ _ :=
    SubsetSum.holdOnInstance_iff hn hword hstep hle hi h.sum
      (h.scalarBits_eq.trans_lt (by decide)) hpointX hpointY
  have hinverse {label : String} : (cells.sum.xDiffInvConstraint label cells.xDiffInv
      cells.doubling.x.current).HoldsOnInstance n columns periodic b cells.height i ↔ _ :=
    SubsetSum.xDiffInv_holdsOnInstance_iff hn hword hstep hle hi h.sum h.xDiffInv hpointX
  have hdoubling {label : String} : (∀ c ∈ cells.doubling.constraints label cells.sum,
      c.HoldsOnInstance n columns periodic b cells.height i) ↔ _ :=
    SubsetSum.doubling_holdOnInstance_iff hn hword hstep hle hi h.doubling
  have hunpacking {label : String} : (∀ c ∈ cells.sum.unpackingConstraints label cells.unpacking,
      c.HoldsOnInstance n columns periodic b cells.height i) ↔ _ :=
    SubsetSum.unpacking_holdOnInstance_iff hn hword hstep hle hi h.sum h.unpacking
  simp (disch := decide) only [pointConstraints, constraints, List.append_assoc, List.drop_left,
    List.forall_mem_append, List.forall_mem_cons, List.not_mem_nil, false_implies, implies_true,
    and_true, holdsOnInstance_every_iff hn h hi, Term.onRow_sub, hvalue, hcurrent h.doubling.x,
    hcurrent h.doubling.y, hcurrent h.sum.suffix, hcurrent h.sum.x, hcurrent h.sum.y,
    hfirst h.sum.x, hfirst h.sum.y, sub_eq_zero, hsum, hinverse, hdoubling, hunpacking,
    h.scalarBits_eq, multiplies_iff, and_assoc]
  rfl

/-- The constraints of an instance are those on addresses and equations between its cells. -/
theorem holdOnInstance_iff : (∀ c ∈ cells.constraints,
      c.HoldsOnInstance n columns periodic b cells.height i) ↔
    (∀ c ∈ cells.addressConstraints, c.HoldsOnInstance n columns periodic b cells.height i) ∧
      cells.Multiplies columns i := by
  rw [constraints_eq, List.forall_mem_append, pointConstraints_holdOnInstance_iff hn hword h hi]

end Instance

/-! ## Soundness -/

/-- An instance adds the multiple by the representative of its scalar. -/
theorem Multiplies.add_nsmul_eq (h : cells.Multiplies columns i) {P Q : CurvePoint}
    (hP : P.point = .affine (cells.valueAt columns i 0) (cells.valueAt columns i 1))
    (hQ : Q.point = .affine (cells.valueAt columns i 2) (cells.valueAt columns i 3)) :
    (P + (cells.valueAt columns i 4).val • Q).point =
      .affine (cells.valueAt columns i 5) (cells.valueAt columns i 6) := by
  obtain ⟨m, hm, hsuffix⟩ := h.extracts.exists_scalar (by decide) (by decide)
  have hscalar : (cells.valueAt columns i 4).val = m := by
    rw [← h.scalar, hsuffix 0 (by decide), pow_zero, Nat.div_one]
    exact Felt.val_natCast_of_lt (h.unpacks.lt_starkPrime hsuffix hm)
  rw [h.p_x, h.p_y] at hP
  rw [h.q_x, h.q_y] at hQ
  rw [hscalar, h.r_x, h.r_y]
  exact h.adds.last_eq h.xDiffInv hsuffix (hm.trans (by decide)) hP
    fun k hk => h.doubles.point_eq hQ (Nat.lt_of_succ_lt hk)

/-- Instances of a layout whose constraints hold compute multiples of points of the curve. -/
theorem add_nsmul_eq_of_holdOnInstance {config : LayoutConfig} {modulus : Nat}
    {params : Option Pedersen.Params} {l : Layout}
    (hbuild : Layout.build config n params modulus = .ok l) (hword : n < 2 ^ 64)
    (hcells : .ecOp cells ∈ l.components) (hi : i < n / cells.height)
    (hholds : ∀ c ∈ cells.constraints, c.HoldsOnInstance n columns periodic b cells.height i)
    {P Q : CurvePoint}
    (hP : P.point = .affine (cells.valueAt columns i 0) (cells.valueAt columns i 1))
    (hQ : Q.point = .affine (cells.valueAt columns i 2) (cells.valueAt columns i 3)) :
    (P + (cells.valueAt columns i 4).val • Q).point =
      .affine (cells.valueAt columns i 5) (cells.valueAt columns i 6) := by
  obtain ⟨hn, -, harranged⟩ := Layout.isArranged_of_build hbuild
  have hmultiplies := (holdOnInstance_iff hn hword (harranged _ hcells) hi).mp hholds
  exact hmultiplies.2.add_nsmul_eq hP hQ

/-- A layout with room for one multiple of a point in a trace of 256 rows. -/
def onceConfig : LayoutConfig where
  name := "multiples"
  ecOp := some 16

def onceCells : EcOpCells where
  sum := ⟨⟨6, 1, 0⟩, ⟨7, 1, 0⟩, ⟨10, 1, 0⟩, ⟨8, 1, 0⟩, EcOp.scalarBits⟩
  xDiffInv := ⟨9, 1, 0⟩
  doubling := ⟨⟨11, 1, 0⟩, ⟨12, 1, 0⟩, ⟨13, 1, 0⟩⟩
  unpacking := ⟨14, 1, 0⟩
  memory := ⟨3, 32, 6⟩

/-- The point that the generator is added to, once. -/
def onceStart : CurvePoint := -CurvePoint.shift

/-- The memory of the instance, from address 100 on. -/
def onceMemory (row : Nat) : Felt :=
  let sum := onceStart + CurvePoint.generator
  let values := [onceStart.point.x, onceStart.point.y, Point.generator.x, Point.generator.y, 1,
    sum.point.x, sum.point.y]
  if row % 32 = 7 then values[row / 32]?.getD 0 else .ofNat (100 + row / 32)

def onceRows : List (Nat → Felt) :=
  let sum := PointSum.multiples onceStart CurvePoint.generator 1
  let point := DoubledPoint.multiples CurvePoint.generator
  [0, 0, 0, onceMemory, 0, 0, sum.x, sum.y, sum.slope,
    sum.xDiffInverse point.x, sum.suffix, point.x, point.y, point.slope, 0]

def onceColumns : List (Array Felt) := columnsOfRows steps onceRows

theorem onceColumns_multiply : onceCells.Multiplies onceColumns 0 := by
  have hcell {column : Nat} {cell : Nat → Felt} (hc : onceRows[column]? = some cell) (k : Nat)
      (hk : k < steps) :
      (⟨column, 1, 0⟩ : VirtualColumn).cellAt onceColumns (steps * 0 + k) = cell k := by
    rw [mul_zero, zero_add, VirtualColumn.cellAt_column]
    exact traceCell_columnsOfRows hc hk
  have hpoint : (onceCells.pointAt onceColumns 0).Follows CurvePoint.generator :=
    Doubling.pointAt_follows (hcell rfl) (hcell rfl) fun k hk => hcell rfl k (Nat.lt_of_succ_lt hk)
  have hsum : (onceCells.sumAt onceColumns 0).Follows onceStart CurvePoint.generator 1 :=
    SubsetSum.sumAt_follows (hcell rfl) (hcell rfl) (hcell rfl) (hcell rfl)
  have hpoint_eq (k : Nat) (hk : k + 1 < steps) :=
    hpoint.point_eq CurvePoint.generator_ne_zero (Nat.lt_of_succ_lt hk)
  have havoids := CurvePoint.neg_shift_avoids_generator
  have hunpacking (k : Nat) (hk : k < steps) :
      onceCells.unpacking.cellAt onceColumns (steps * 0 + k) = (0 : Nat → Felt) k := hcell rfl k hk
  exact {
    doubles := hpoint.doubles CurvePoint.generator_ne_zero
    q_x := by decide +kernel
    q_y := by decide +kernel
    unpacks := by
      rw [hunpacking 1 (by decide), ← add_zero (steps * 0), hunpacking 0 (by decide)]
      exact PointSum.unpacks_zero (by rw [PointSum.digit_eq hsum.suffix (by decide)]; decide)
    extracts := hsum.extracts (by decide) (by decide)
    adds := hsum.adds hpoint_eq (CurvePoint.ne_zero_of_point_eq rfl) havoids
    xDiffInv := hsum.xDiffInv hpoint_eq havoids fun k hk => hcell rfl k (Nat.lt_of_succ_lt hk)
    scalar := by decide +kernel
    p_x := by decide +kernel
    p_y := by decide +kernel
    r_x := by decide +kernel
    r_y := by decide +kernel }

theorem onceAddresses_hold : ∀ c ∈ onceCells.addressConstraints,
    c.HoldsOnInstance 256 onceColumns [] ⟨[], List.replicate 13 (some 100), 0⟩ 256 0 := by
  simp only [Constraint.HoldsOnInstance]
  decide +kernel

/-- The instance adds the generator once. -/
theorem add_nsmul_once : (onceCells.valueAt onceColumns 0 4).val = 1 ∧
    (onceStart + (onceCells.valueAt onceColumns 0 4).val • CurvePoint.generator).point =
      .affine (onceCells.valueAt onceColumns 0 5) (onceCells.valueAt onceColumns 0 6) := by
  have hbuild : ∃ l, Layout.build onceConfig 256 none = .ok l ∧ .ecOp onceCells ∈ l.components :=
    ⟨_, rfl, List.mem_of_getElem? (i := 3) rfl⟩
  obtain ⟨l, hl, hcells⟩ := hbuild
  obtain ⟨hn, -, harranged⟩ := Layout.isArranged_of_build hl
  have hi : 0 < 256 / onceCells.height := by decide
  have hholds := (holdOnInstance_iff hn (by decide) (harranged _ hcells) hi).mpr
    ⟨onceAddresses_hold, onceColumns_multiply⟩
  refine ⟨by decide +kernel, ?_⟩
  exact add_nsmul_eq_of_holdOnInstance hl (by decide) hcells hi hholds (by decide +kernel)
    (by decide +kernel)

end EcOpCells

end CairoTrace
