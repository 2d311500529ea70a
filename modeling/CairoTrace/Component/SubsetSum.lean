import CairoTrace.Component.Basic

/-!
# Sums of points in a trace

Constraints that are common to the builtins of the Stark curve. A sum of points takes 256 steps:
on each step the point of the step is added if the next digit of a scalar is set. The scalar is
held as its suffixes, the digits that have not been used.
-/

namespace CairoTrace

/-- The cells of a sum of points, one of each kind per step. -/
structure SubsetSum where
  x : VirtualColumn
  y : VirtualColumn
  suffix : VirtualColumn
  slope : VirtualColumn
  /-- The digits of the scalar, so that the suffix is zero from this step on. -/
  scalarBits : Nat
deriving DecidableEq

namespace SubsetSum

def steps : Nat := 256

/-- The sum in columns for the coordinates, the suffix and the slope. -/
def ofColumns (x y suffix slope step scalarBits : Nat) : SubsetSum :=
  { x := ⟨x, step, 0⟩, y := ⟨y, step, 0⟩, suffix := ⟨suffix, step, 0⟩, slope := ⟨slope, step, 0⟩
    scalarBits }

def step (s : SubsetSum) : Nat := s.suffix.step

def height (s : SubsetSum) : Nat := steps * s.step

/-- The digit that is used on the current step. -/
def bit (s : SubsetSum) : Term := s.suffix.current - s.suffix.next * 2

def transition (s : SubsetSum) : Rows := .every s.step 0

/-- The rows of the last step of each sum. -/
def lastStep (s : SubsetSum) : Rows := .every s.height ((steps - 1) * s.step)

/-- A constraint on every step but the last. -/
def onSteps (s : SubsetSum) (name : String) (expr : Term) : Constraint :=
  { name, expr, domain := s.transition, exclusions := [s.lastStep] }

/-- The scalar is below the modulus `2^251 + 17·2^192 + 1` of the field, and so is the only one
with its digits. A scalar of 252 digits is too large only if digit 251 is set and one of 196 and
192; if all three are, the digits below 192 and between them have to be zero. The cells of
`unpacking` hold on the first two steps the product of the three digits, and that of 251 and
196. -/
def unpackingConstraints (s : SubsetSum) (label : String) (unpacking : VirtualColumn) :
    List Constraint :=
  let suffix (k : Nat) : Term := s.suffix.cell k
  let bit (k : Nat) : Term := suffix k - suffix (k + 1) * 2
  let ones192 := unpacking.cell 0
  let ones196 := unpacking.cell 1
  let constraint (name : String) (expr : Term) : Constraint :=
    { name := s!"{label}/bit_unpacking/{name}", expr, domain := .every s.height 0 }
  [constraint "last_one_is_zero" (ones192 * bit 0),
    constraint "zeroes_between_ones0" (ones192 * (suffix 1 - suffix 192 * .pow2 191)),
    constraint "cumulative_bit192" (ones192 - ones196 * bit 192),
    constraint "zeroes_between_ones192" (ones196 * (suffix 193 - suffix 196 * .pow2 3)),
    constraint "cumulative_bit196" (ones196 - bit 251 * bit 196),
    constraint "zeroes_between_ones196" (bit 251 * (suffix 197 - suffix 251 * .pow2 54))]

/-- The point of each step is added if the digit of the step is set, and otherwise the sum is
copied. -/
def constraints (s : SubsetSum) (label : String) (pointX pointY : Term) : List Constraint :=
  let x := s.x.current
  let y := s.y.current
  let nextX := s.x.next
  let nextY := s.y.next
  let slope := s.slope.current
  [s.onSteps s!"{label}/booleanity_test" (.booleanity s.bit),
    { name := s!"{label}/bit_extraction_end", expr := s.suffix.current
      domain := .every s.height (s.scalarBits * s.step) },
    { name := s!"{label}/zeros_tail", expr := s.suffix.current, domain := s.lastStep },
    s.onSteps s!"{label}/add_points/slope" (s.bit * (y - pointY) - slope * (x - pointX)),
    s.onSteps s!"{label}/add_points/x" (slope * slope - s.bit * (x + pointX + nextX)),
    s.onSteps s!"{label}/add_points/y" (s.bit * (y + nextY) - slope * (x - nextX)),
    s.onSteps s!"{label}/copy_point/x" ((1 - s.bit) * (nextX - x)),
    s.onSteps s!"{label}/copy_point/y" ((1 - s.bit) * (nextY - y))]

/-- The first coordinates of the sum and of the point of a step differ. -/
def xDiffInvConstraint (s : SubsetSum) (label : String) (xDiffInv : VirtualColumn) (pointX : Term) :
    Constraint :=
  s.onSteps s!"{label}/add_points/x_diff_inv" (xDiffInv.current * (s.x.current - pointX) - 1)

end SubsetSum

/-- The cells of a point that is doubled on every step of a sum. -/
structure Doubling where
  x : VirtualColumn
  y : VirtualColumn
  slope : VirtualColumn
deriving DecidableEq

namespace Doubling

/-- The point of a step is twice that of the step before it, except on the first. -/
def constraints (d : Doubling) (label : String) (s : SubsetSum) : List Constraint :=
  let x := d.x.current
  let y := d.y.current
  let slope := d.slope.current
  [s.onSteps s!"{label}/slope" (x * x * 3 + 1 - (y + y) * slope),
    s.onSteps s!"{label}/x" (slope * slope - (x + x + d.x.next)),
    s.onSteps s!"{label}/y" (y + d.y.next - slope * (x - d.x.next))]

end Doubling

/-- The products of the digits 251, 196 and 192 of a scalar, and of the first two of them. -/
def unpackingProducts (scalar : Word) : Felt × Felt :=
  let ones196 := scalar.testBit 251 && scalar.testBit 196
  (.ofNat (ones196 && scalar.testBit 192).toNat, .ofNat ones196.toNat)

/-- Writes the products of the digits of a scalar on the first two steps of a sum. -/
def unpackingWrites (unpacking : VirtualColumn) (firstStep : Nat) (scalar : Word) : List Write :=
  let products := unpackingProducts scalar
  [.at' unpacking firstStep products.1, .at' unpacking (firstStep + 1) products.2]

end CairoTrace
