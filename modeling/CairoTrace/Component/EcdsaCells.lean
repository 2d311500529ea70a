import CairoTrace.Builtin.Ecdsa
import CairoTrace.Component.SubsetSum
import CairoTrace.Polynomial.Periodic

/-!
# Signatures in a trace

An instance checks a signature `(r, w)` of a message `z` by a key `Q`. One sum goes from the
negative of the shift point to `z·G` less it, over the multiples of the generator, which are
periodic columns. Another runs twice as fast, from the shift point to `r·Q` more than it and then
to `w·B` more than it, for `B = z·G + r·Q`. Only the message and the first coordinate of the key
are in memory.
-/

namespace CairoTrace

structure EcdsaCells where
  key : SubsetSum
  keyXDiffInv : VirtualColumn
  doubling : Doubling
  generator : SubsetSum
  generatorXDiffInv : VirtualColumn
  /-- The column of cells that an instance has once, on its first rows. -/
  cells : Nat
  /-- The slots of memory of the key and of the message. -/
  pubkey : VirtualColumn
  message : VirtualColumn
  /-- The index of the periodic column of first coordinates, which the second ones follow. -/
  periodic : Nat
deriving DecidableEq

namespace EcdsaCells

def height (c : EcdsaCells) : Nat := c.generator.height

/-- The cell on a row of each instance. -/
def once (c : EcdsaCells) (row : Nat) : VirtualColumn := ⟨c.cells, c.height, row⟩

def messageInv (c : EcdsaCells) : VirtualColumn := c.once 0
def keyXSquared (c : EcdsaCells) : VirtualColumn := c.once 1
def bSlope (c : EcdsaCells) : VirtualColumn := c.once 2
def bXDiffInv (c : EcdsaCells) : VirtualColumn := c.once 3
def rPointSlope (c : EcdsaCells) : VirtualColumn := c.once 4
def rPointXDiffInv (c : EcdsaCells) : VirtualColumn := c.once 5

/-- The coordinates of the generator and its doublings. -/
def periodicColumns (n : Nat) (c : EcdsaCells) :
    Except ConstraintError (List PeriodicColumn) := do
  let points := Ecdsa.generatorPoints
  let x ← PeriodicColumn.ofValues (points.map (·.x)) n c.generator.step
  let y ← PeriodicColumn.ofValues (points.map (·.y)) n c.generator.step
  return [x, y]

/-- The three sums of points. -/
def sumConstraints (c : EcdsaCells) : List Constraint :=
  let pointX := Term.periodic c.periodic
  let pointY := Term.periodic (c.periodic + 1)
  let generatorLabel := "ecdsa/signature0/exponentiate_generator"
  let keyLabel := "ecdsa/signature0/exponentiate_key"
  c.doubling.constraints "ecdsa/signature0/doubling_key" c.key ++
  c.generator.constraints generatorLabel pointX pointY ++
  [c.generator.xDiffInvConstraint generatorLabel c.generatorXDiffInv pointX] ++
  c.key.constraints keyLabel c.doubling.x.current c.doubling.y.current ++
  [c.key.xDiffInvConstraint keyLabel c.keyXDiffInv c.doubling.x.current]

/-- The sums start at the shift point, the second key is `B`, and the last sum leads to a point
with first coordinate `r`. -/
def signatureConstraints (c : EcdsaCells) : List Constraint :=
  let every : Rows := .every c.height 0
  let everyKeySum : Rows := .every c.key.height 0
  let shiftX := Term.constant Ecdsa.shift.x
  let shiftY := Term.constant Ecdsa.shift.y
  let last : Nat := SubsetSum.steps - 1
  let zX := c.generator.x.cell last
  let zY := c.generator.y.cell last
  let rX := c.key.x.cell last
  let rY := c.key.y.cell last
  let bX := c.doubling.x.cell SubsetSum.steps
  let bY := c.doubling.y.cell SubsetSum.steps
  let bSlope := c.bSlope.current
  let wX := c.key.x.cell (2 * SubsetSum.steps - 1)
  let wY := c.key.y.cell (2 * SubsetSum.steps - 1)
  let rSlope := c.rPointSlope.current
  let qX := c.doubling.x.current
  let qY := c.doubling.y.current
  let qXSquared := c.keyXSquared.current
  [{ name := "ecdsa/signature0/init_gen/x", expr := c.generator.x.current - shiftX
     domain := every },
    { name := "ecdsa/signature0/init_gen/y", expr := c.generator.y.current + shiftY
      domain := every },
    { name := "ecdsa/signature0/init_key/x", expr := c.key.x.current - shiftX
      domain := everyKeySum },
    { name := "ecdsa/signature0/init_key/y", expr := c.key.y.current - shiftY
      domain := everyKeySum },
    { name := "ecdsa/signature0/add_results/slope", expr := zY - (rY + bSlope * (zX - rX))
      domain := every },
    { name := "ecdsa/signature0/add_results/x", expr := bSlope * bSlope - (zX + rX + bX)
      domain := every },
    { name := "ecdsa/signature0/add_results/y", expr := zY + bY - bSlope * (zX - bX)
      domain := every },
    { name := "ecdsa/signature0/add_results/x_diff_inv"
      expr := c.bXDiffInv.current * (zX - rX) - 1, domain := every },
    { name := "ecdsa/signature0/extract_r/slope", expr := wY + shiftY - rSlope * (wX - shiftX)
      domain := every },
    { name := "ecdsa/signature0/extract_r/x"
      expr := rSlope * rSlope - (wX + shiftX + c.key.suffix.current), domain := every },
    { name := "ecdsa/signature0/extract_r/x_diff_inv"
      expr := c.rPointXDiffInv.current * (wX - shiftX) - 1, domain := every },
    { name := "ecdsa/signature0/z_nonzero"
      expr := c.generator.suffix.current * c.messageInv.current - 1, domain := every },
    { name := "ecdsa/signature0/r_and_w_nonzero"
      expr := c.key.suffix.current * c.doubling.slope.cell last - 1, domain := everyKeySum },
    { name := "ecdsa/signature0/q_on_curve/x_squared", expr := qXSquared - qX * qX
      domain := every },
    { name := "ecdsa/signature0/q_on_curve/on_curve"
      expr := qY * qY - (qX * qXSquared + 1 * qX + .constant Point.curveConstant)
      domain := every }]

/-- The key and the message are in memory at successive addresses. -/
def memoryConstraints (c : EcdsaCells) : List Constraint :=
  let every : Rows := .every c.height 0
  [{ name := "ecdsa/init_addr", expr := c.pubkey.current - Hint.ecdsaStart.term
     domain := .first 0 },
    { name := "ecdsa/message_addr", expr := c.message.current - (c.pubkey.current + 1)
      domain := every },
    { name := "ecdsa/pubkey_addr", expr := c.pubkey.next - (c.message.current + 1)
      domain := every, exclusions := [.fromEnd c.height] },
    { name := "ecdsa/message_value0"
      expr := c.message.valueColumn.current - c.generator.suffix.current, domain := every },
    { name := "ecdsa/pubkey_value0", expr := c.pubkey.valueColumn.current - c.doubling.x.current
      domain := every }]

def constraints (c : EcdsaCells) : List Constraint :=
  c.sumConstraints ++ c.signatureConstraints ++ c.memoryConstraints

/-- The writes of a step of a sum. -/
def sumWrites (sum : SubsetSum) (xDiffInv : VirtualColumn) (i : Nat) (s : SumStep) : List Write :=
  [.at' sum.x i s.point.x, .at' sum.y i s.point.y, .at' sum.suffix i s.suffix,
    .at' sum.slope i s.slope, .at' xDiffInv i s.xDiffInv]

/-- The writes of a doubling. -/
def doublingWrites (c : EcdsaCells) (i : Nat) (d : DoublingStep) : List Write :=
  [.at' c.doubling.x i d.point.x, .at' c.doubling.y i d.point.y, .at' c.doubling.slope i d.slope]

/-- The writes of instance `i`, whose segment of memory starts at `start`. -/
def instanceWrites (c : EcdsaCells) (start i : Nat) (w : Ecdsa.Witness) : List Write :=
  let keyStep := i * (2 * SubsetSum.steps)
  let slots := [(c.pubkey, w.key.x), (c.message, w.message)]
  w.generatorSum.zipIdx.flatMap (fun (s, k) =>
    sumWrites c.generator c.generatorXDiffInv (i * SubsetSum.steps + k) s) ++
  (w.keySum.zip w.doubling).zipIdx.flatMap (fun ((s, d), k) =>
    sumWrites c.key c.keyXDiffInv (keyStep + k) s ++ c.doublingWrites (keyStep + k) d) ++
  [.at' c.messageInv i w.message⁻¹, .at' c.keyXSquared i w.key.x.square, .at' c.bSlope i w.bSlope,
    .at' c.bXDiffInv i w.bXDiffInv, .at' c.rPointSlope i w.rPointSlope,
    .at' c.rPointXDiffInv i w.rPointXDiffInv] ++
  List.zipWith (fun (slot, v) address => .memory (slot.row i) address v) slots
    (w.inst.addresses start)

/-- The writes of all instances; a place without an instance has the dummy instance. The witnesses
of all instances are computed before the first write. -/
def writes (c : EcdsaCells) (start : Nat) (instances : List (Option EcdsaInstance)) :
    List Write :=
  let dummy := Thunk.mk fun _ => Ecdsa.Witness.dummy 0
  let witnesses := instances.zipIdx.mapM fun (inst?, i) =>
    match inst? with
    | some inst => Ecdsa.Witness.ofInstance inst
    | none => do
      let w ← dummy.get
      return { w with inst := { w.inst with index := i } }
  match witnesses with
  | .error e => [.refuse (.builtin e)]
  | .ok witnesses => witnesses.zipIdx.flatMap fun (w, i) => c.instanceWrites start i w

end EcdsaCells

end CairoTrace
