import CairoTrace.Builtin.EcOp
import CairoTrace.Component.SubsetSum

/-!
# Multiples of a point in a trace

An instance doubles `q` on every step, and adds it to a sum that starts at `p` when the next digit
of `m` is set; the sum ends at `r = p + m·q`.
-/

namespace CairoTrace

structure EcOpCells where
  sum : SubsetSum
  xDiffInv : VirtualColumn
  doubling : Doubling
  unpacking : VirtualColumn
  /-- The slot of memory, with eight places for an instance, of which the last is not used. -/
  memory : VirtualColumn
deriving DecidableEq

namespace EcOpCells

/-- The places of memory that an instance uses. -/
def memoryCells : Nat := 7

/-- The places of memory that an instance takes. -/
def memoryPlaces : Nat := 8

def height (c : EcOpCells) : Nat := c.sum.height

/-- Every address follows the one before it. -/
def addressConstraints (c : EcOpCells) : List Constraint :=
  { name := "ec_op/init_addr", expr := c.memory.current - Hint.ecOpStart.term, domain := .first 0 }
  :: { name := "ec_op/p_x_addr"
       expr := c.memory.cell memoryPlaces - (c.memory.current + .constant (.ofNat memoryCells))
       domain := .every c.height 0, exclusions := [.fromEnd c.height] }
  :: ["p_y", "q_x", "q_y", "m", "r_x", "r_y"].zipIdx.map fun (name, k) =>
    { name := s!"ec_op/{name}_addr", expr := c.memory.cell (k + 1) - (c.memory.cell k + 1)
      domain := .every c.height 0 }

def constraints (c : EcOpCells) : List Constraint :=
  let every : Rows := .every c.height 0
  let label := "ec_op/ec_subset_sum"
  let value (k : Nat) : Term := c.memory.valueColumn.cell k
  let last : Nat := SubsetSum.steps - 1
  let qX := c.doubling.x.current
  let qY := c.doubling.y.current
  c.addressConstraints ++ c.doubling.constraints "ec_op/doubling_q" c.sum ++
  [{ name := "ec_op/get_q_x", expr := value 2 - qX, domain := every },
    { name := "ec_op/get_q_y", expr := value 3 - qY, domain := every }] ++
  c.sum.unpackingConstraints label c.unpacking ++ c.sum.constraints label qX qY ++
  [c.sum.xDiffInvConstraint label c.xDiffInv qX,
    { name := "ec_op/get_m", expr := c.sum.suffix.current - value 4, domain := every },
    { name := "ec_op/get_p_x", expr := value 0 - c.sum.x.current, domain := every },
    { name := "ec_op/get_p_y", expr := value 1 - c.sum.y.current, domain := every },
    { name := "ec_op/set_r_x", expr := value 5 - c.sum.x.cell last, domain := every },
    { name := "ec_op/set_r_y", expr := value 6 - c.sum.y.cell last, domain := every }]

/-- The writes of a step. -/
def stepWrites (c : EcOpCells) (i : Nat) (d : DoublingStep) (s : SumStep) : List Write :=
  [.at' c.sum.x i s.point.x, .at' c.sum.y i s.point.y, .at' c.sum.suffix i s.suffix,
    .at' c.sum.slope i s.slope, .at' c.xDiffInv i s.xDiffInv, .at' c.doubling.x i d.point.x,
    .at' c.doubling.y i d.point.y, .at' c.doubling.slope i d.slope]

/-- The writes of instance `i`, whose segment of memory starts at `start`. -/
def instanceWrites (c : EcOpCells) (start i : Nat) (w : EcOp.Witness) : List Write :=
  let firstStep := i * SubsetSum.steps
  let values := [w.p.x, w.p.y, w.q.x, w.q.y, w.m, w.r.x, w.r.y]
  (w.doubling.zip w.sum).zipIdx.flatMap (fun ((d, s), k) => c.stepWrites (firstStep + k) d s) ++
  unpackingWrites c.unpacking firstStep w.inst.m ++
  ((w.inst.addresses start).zip values).zipIdx.map fun ((address, v), k) =>
    .memory (c.memory.row (memoryPlaces * i + k)) address v

/-- The writes of all instances; a place without an instance has the dummy instance. The witnesses
of all instances are computed before the first write. -/
def writes (c : EcOpCells) (start : Nat) (instances : List (Option EcOpInstance)) : List Write :=
  let dummy := Thunk.mk fun _ => EcOp.Witness.dummy 0
  let witnesses := instances.zipIdx.mapM fun (inst?, i) =>
    match inst? with
    | some inst => EcOp.Witness.ofInstance inst
    | none => do
      let w ← dummy.get
      return { w with inst := { w.inst with index := i } }
  match witnesses with
  | .error e => [.refuse (.builtin e)]
  | .ok witnesses => witnesses.zipIdx.flatMap fun (w, i) => c.instanceWrites start i w

end EcOpCells

end CairoTrace
