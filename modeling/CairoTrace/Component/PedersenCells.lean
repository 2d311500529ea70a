import CairoTrace.Builtin.Pedersen
import CairoTrace.Component.SubsetSum
import CairoTrace.Polynomial.Periodic

/-!
# Pedersen hashes in a trace

An instance hashes two words by two sums of points one after the other; the second starts where
the first ends. The points that are added are periodic columns, and the hash is the first
coordinate of the sum on step 511.
-/

namespace CairoTrace

structure PedersenCells where
  params : Pedersen.Params
  sum : SubsetSum
  unpacking : VirtualColumn
  /-- The slots of memory of the two words and of the hash. -/
  input0 : VirtualColumn
  input1 : VirtualColumn
  output : VirtualColumn
  /-- The index of the periodic column of first coordinates, which the second ones follow. -/
  periodic : Nat

namespace PedersenCells

def height (c : PedersenCells) : Nat := 2 * c.sum.height

/-- The coordinates of the points that are added. -/
def periodicColumns (n : Nat) (c : PedersenCells) :
    Except ConstraintError (List PeriodicColumn) := do
  let x ← PeriodicColumn.ofValues (c.params.rows.map (·.x)) n c.sum.step
  let y ← PeriodicColumn.ofValues (c.params.rows.map (·.y)) n c.sum.step
  return [x, y]

def constraints (c : PedersenCells) : List Constraint :=
  let every : Rows := .every c.height 0
  let steps := SubsetSum.steps
  let label := "pedersen/hash0/ec_subset_sum"
  c.sum.unpackingConstraints label c.unpacking ++
  c.sum.constraints label (.periodic c.periodic) (.periodic (c.periodic + 1)) ++
  [{ name := "pedersen/hash0/copy_point/x", expr := c.sum.x.cell steps - c.sum.x.cell (steps - 1)
     domain := every },
    { name := "pedersen/hash0/copy_point/y", expr := c.sum.y.cell steps - c.sum.y.cell (steps - 1)
      domain := every },
    { name := "pedersen/hash0/init/x", expr := c.sum.x.current - .constant c.params.shift.x
      domain := every },
    { name := "pedersen/hash0/init/y", expr := c.sum.y.current - .constant c.params.shift.y
      domain := every },
    { name := "pedersen/input0_value0"
      expr := c.input0.valueColumn.current - c.sum.suffix.current, domain := every },
    { name := "pedersen/input0_addr", expr := c.input0.next - (c.output.current + 1)
      domain := every, exclusions := [.fromEnd c.height] },
    { name := "pedersen/init_addr", expr := c.input0.current - Hint.pedersenStart.term
      domain := .first 0 },
    { name := "pedersen/input1_value0"
      expr := c.input1.valueColumn.current - c.sum.suffix.cell steps, domain := every },
    { name := "pedersen/input1_addr", expr := c.input1.current - (c.input0.current + 1)
      domain := every },
    { name := "pedersen/output_value0"
      expr := c.output.valueColumn.current - c.sum.x.cell (2 * steps - 1), domain := every },
    { name := "pedersen/output_addr", expr := c.output.current - (c.input1.current + 1)
      domain := every }]

/-- The writes of a step of a sum. -/
def stepWrites (c : PedersenCells) (i : Nat) (s : Pedersen.Step) : List Write :=
  [.at' c.sum.x i s.point.x, .at' c.sum.y i s.point.y, .at' c.sum.suffix i s.suffix,
    .at' c.sum.slope i s.slope]

/-- The writes of the sum over one word. -/
def inputWrites (c : PedersenCells) (firstStep : Nat) (input : Word) (steps : List Pedersen.Step) :
    List Write :=
  steps.zipIdx.flatMap (fun (s, k) => c.stepWrites (firstStep + k) s) ++
    unpackingWrites c.unpacking firstStep input

/-- The writes of instance `i`, whose segment of memory starts at `start`. -/
def instanceWrites (c : PedersenCells) (start i : Nat) (w : Pedersen.Witness) : List Write :=
  let firstStep := i * (2 * SubsetSum.steps)
  let slots := [(c.input0, w.a), (c.input1, w.b), (c.output, w.output)]
  c.inputWrites firstStep w.inst.a w.aSteps ++
  c.inputWrites (firstStep + SubsetSum.steps) w.inst.b w.bSteps ++
  (List.zipWith (fun (slot, v) address => .memory (slot.row i) address v) slots
    (w.inst.addresses start))

/-- The writes of all instances; a place without an instance hashes zeros. The witnesses of all
instances are computed before the first write. -/
def writes (c : PedersenCells) (start : Nat) (instances : List (Option PedersenInstance)) :
    List Write :=
  let witnesses := instances.zipIdx.mapM fun (inst?, i) =>
    Pedersen.Witness.ofInstance c.params (inst?.getD ⟨i, 0, 0⟩)
  match witnesses with
  | .error e => [.refuse (.builtin e)]
  | .ok witnesses => witnesses.zipIdx.flatMap fun (w, i) => c.instanceWrites start i w

end PedersenCells

end CairoTrace
