import CairoTrace.Component.PedersenCells
import CairoTrace.Proofs.Component.AddressRows
import CairoTrace.Proofs.Component.SumRows

/-!
# What the constraints of hashes say

The constraints of an instance, apart from those on the addresses of its values, are equations
between its cells (`PedersenCells.hashConstraints_holdOnInstance_iff`). An instance has the rows of
two sums, the second of which starts where the first one ends.
-/

namespace CairoTrace

open SubsetSum (steps)

namespace PedersenCells

/-! ## Cells -/

section Cells

variable (cells : PedersenCells) (columns : List (Array Felt)) (i : Nat)

/-- The sums over the first and the second word. -/
def sumAt (j : Nat) : PointSum := cells.sum.sumAt columns (2 * i + j)

/-- The constraints that are not on addresses. -/
def hashConstraints : List Constraint := cells.constraints.filter (·.name ∉ addressNames)

/-- An instance adds points for the digits of two words, the first ones to the shift point and the
second ones to the result. -/
@[mk_iff]
structure Hashes (pointX pointY : Nat → Nat → Felt) : Prop where
  unpacks : ∀ j < 2, (cells.sumAt columns i j).Unpacks
    (cells.unpacking.cellAt columns (steps * (2 * i + j)))
    (cells.unpacking.cellAt columns (steps * (2 * i + j) + 1))
  extracts : ∀ j < 2, (cells.sumAt columns i j).Extracts Pedersen.inputBits
  adds : ∀ j < 2, (cells.sumAt columns i j).Adds (pointX j) (pointY j)
  copy_x : (cells.sumAt columns i 1).x 0 = (cells.sumAt columns i 0).x (steps - 1)
  copy_y : (cells.sumAt columns i 1).y 0 = (cells.sumAt columns i 0).y (steps - 1)
  init_x : (cells.sumAt columns i 0).x 0 = cells.params.shift.x
  init_y : (cells.sumAt columns i 0).y 0 = cells.params.shift.y
  input0 : cells.input0.valueColumn.cellAt columns i = (cells.sumAt columns i 0).suffix 0
  input1 : cells.input1.valueColumn.cellAt columns i = (cells.sumAt columns i 1).suffix 0
  output : cells.output.valueColumn.cellAt columns i = (cells.sumAt columns i 1).x (steps - 1)

end Cells

theorem hashConstraints_eq (cells : PedersenCells) : cells.hashConstraints =
    cells.sum.unpackingConstraints "pedersen/hash0/ec_subset_sum" cells.unpacking ++
    cells.sum.constraints "pedersen/hash0/ec_subset_sum" (.periodic cells.periodic)
      (.periodic (cells.periodic + 1)) ++
    [⟨"pedersen/hash0/copy_point/x", cells.sum.x.cell steps - cells.sum.x.cell (steps - 1),
        .every cells.height 0, []⟩,
      ⟨"pedersen/hash0/copy_point/y", cells.sum.y.cell steps - cells.sum.y.cell (steps - 1),
        .every cells.height 0, []⟩,
      ⟨"pedersen/hash0/init/x", cells.sum.x.current - .constant cells.params.shift.x,
        .every cells.height 0, []⟩,
      ⟨"pedersen/hash0/init/y", cells.sum.y.current - .constant cells.params.shift.y,
        .every cells.height 0, []⟩,
      ⟨"pedersen/input0_value0", cells.input0.valueColumn.current - cells.sum.suffix.current,
        .every cells.height 0, []⟩,
      ⟨"pedersen/input1_value0", cells.input1.valueColumn.current - cells.sum.suffix.cell steps,
        .every cells.height 0, []⟩,
      ⟨"pedersen/output_value0",
        cells.output.valueColumn.current - cells.sum.x.cell (2 * steps - 1),
        .every cells.height 0, []⟩] :=
  rfl

/-! ## Rows -/

section Instance

variable {cells : PedersenCells} {n i : Nat} {columns : List (Array Felt)}
  {periodic : List PeriodicColumn} {b : Bindings}

variable (hn : isPowerOfTwo n = true) (hword : n < 2 ^ 64) (h : cells.IsArranged n)
  (hi : i < n / cells.height)

include h

theorem isPowerOfTwo_height : isPowerOfTwo cells.height = true :=
  isPowerOfTwo_mul (by decide) (SubsetSum.isPowerOfTwo_height h.isPowerOfTwo_step)

theorem sum_height_le : cells.sum.height ≤ n :=
  (Nat.le_mul_of_pos_left _ two_pos).trans h.height_le

include hn hi

theorem sum_lt {j : Nat} (hj : j < 2) : 2 * i + j < n / cells.sum.height :=
  instance_step_lt hn (isPowerOfTwo_height h) h.height_le hi rfl hj

theorem holdsOnInstance_every_iff {name : String} {e : Term} :
    (⟨name, e, .every cells.height 0, []⟩ : Constraint).HoldsOnInstance
      n columns periodic b cells.height i ↔ e.onRow n columns periodic b (cells.height * i) = 0 :=
  Constraint.holdsOnInstance_every_iff hn (isPowerOfTwo_height h) h.height_le hi
    (pos_of_isPowerOfTwo (isPowerOfTwo_height h))

include hword

/-- A cell of either sum, read from the first row of the instance. -/
theorem onRow_sum {c : VirtualColumn} (hc : c.StartsSteps cells.sum.step) {j k : Nat} (hj : j < 2)
    (hk : k < steps) :
    (c.cell (steps * j + k : Nat)).onRow n columns periodic b (cells.height * i) =
      c.cellAt columns (steps * (2 * i + j) + k) :=
  SubsetSum.onRow_part hn hword h.isPowerOfTwo_step (by decide) h.height_le hi hc hj hk

/-- The constraints of an instance that are not on addresses are equations between its cells, if
the points are in the periodic columns. -/
theorem hashConstraints_holdOnInstance_iff {pointX pointY : Nat → Nat → Felt}
    (hx : ∀ j < 2, ∀ k, k + 1 < steps → (Term.periodic cells.periodic).onRow n columns periodic b
      (cells.sum.step * (steps * (2 * i + j) + k)) = pointX j k)
    (hy : ∀ j < 2, ∀ k, k + 1 < steps →
      (Term.periodic (cells.periodic + 1)).onRow n columns periodic b
        (cells.sum.step * (steps * (2 * i + j) + k)) = pointY j k) :
    (∀ c ∈ cells.hashConstraints, c.HoldsOnInstance n columns periodic b cells.height i) ↔
      cells.Hashes columns i pointX pointY := by
  have hstep := h.isPowerOfTwo_step
  have hle := sum_height_le h
  have hbits : cells.sum.scalarBits < steps := h.scalarBits_eq.trans_lt (by decide)
  have hparts {cs : List Constraint} :
      (∀ c ∈ cs, c.HoldsOnInstance n columns periodic b cells.height i) ↔ ∀ j < 2, ∀ c ∈ cs,
        c.HoldsOnInstance n columns periodic b cells.sum.height (2 * i + j) :=
    Constraint.forall_holdsOnInstance_mul_iff (by decide)
  have hunpacking {label : String} : (∀ c ∈ cells.sum.unpackingConstraints label cells.unpacking,
      c.HoldsOnInstance n columns periodic b cells.height i) ↔ _ :=
    hparts.trans (forall₂_congr fun j hj => SubsetSum.unpacking_holdOnInstance_iff hn hword hstep
      hle (sum_lt hn h hi hj) h.sum h.unpacking)
  have hsum {label : String} : (∀ c ∈ cells.sum.constraints label (.periodic cells.periodic)
      (.periodic (cells.periodic + 1)),
      c.HoldsOnInstance n columns periodic b cells.height i) ↔ _ :=
    hparts.trans (forall₂_congr fun j hj => SubsetSum.holdOnInstance_iff hn hword hstep hle
      (sum_lt hn h hi hj) h.sum hbits (hx j hj) (hy j hj))
  have hfirst {c : VirtualColumn} (hc : c.StartsSteps cells.sum.step) :
      c.current.onRow n columns periodic b (cells.height * i) =
        c.cellAt columns (steps * (2 * i + 0) + 0) :=
    onRow_sum (j := 0) (k := 0) hn hword h hi hc (by decide) (by decide)
  have hlast {c : VirtualColumn} (hc : c.StartsSteps cells.sum.step) :
      (c.cell ((steps : Int) - 1)).onRow n columns periodic b (cells.height * i) =
        c.cellAt columns (steps * (2 * i + 0) + (steps - 1)) :=
    onRow_sum (j := 0) (k := steps - 1) hn hword h hi hc (by decide) (by decide)
  have hsecond {c : VirtualColumn} (hc : c.StartsSteps cells.sum.step) :
      (c.cell (steps : Int)).onRow n columns periodic b (cells.height * i) =
        c.cellAt columns (steps * (2 * i + 1) + 0) :=
    onRow_sum (j := 1) (k := 0) hn hword h hi hc (by decide) (by decide)
  have hsecondLast {c : VirtualColumn} (hc : c.StartsSteps cells.sum.step) :
      (c.cell (2 * (steps : Int) - 1)).onRow n columns periodic b (cells.height * i) =
        c.cellAt columns (steps * (2 * i + 1) + (steps - 1)) :=
    onRow_sum (j := 1) (k := steps - 1) hn hword h hi hc (by decide) (by decide)
  have hvalue {c : VirtualColumn} (hc : c.IsMemorySlot cells.height) :
      c.valueColumn.current.onRow n columns periodic b (cells.height * i) =
        c.valueColumn.cellAt columns i :=
    hc.onRow_value hn hword (isPowerOfTwo_height h) h.height_le hi
  have hconstant {v : Felt} {row : Nat} :
      (Term.constant v).onRow n columns periodic b row = v := rfl
  simp only [hashConstraints_eq, List.forall_mem_append, List.forall_mem_cons, List.not_mem_nil,
    false_implies, implies_true, and_true, holdsOnInstance_every_iff hn h hi, Term.onRow_sub,
    hunpacking, hsum, hconstant, hfirst h.sum.x, hfirst h.sum.y, hfirst h.sum.suffix,
    hlast h.sum.x, hlast h.sum.y, hsecond h.sum.x, hsecond h.sum.y, hsecond h.sum.suffix,
    hsecondLast h.sum.x, hvalue h.input0, hvalue h.input1, hvalue h.output, h.scalarBits_eq,
    sub_eq_zero, hashes_iff, forall₂_and, and_assoc]
  rfl

end Instance

end PedersenCells

end CairoTrace
