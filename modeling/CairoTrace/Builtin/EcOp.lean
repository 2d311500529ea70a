import CairoTrace.Curve.Steps
import CairoTrace.Run.PrivateInput

/-!
# Multiples of a point

Instances of the builtin that computes `r = p + m·q`. A trace holds 256 doublings of `q` and 256
steps of the sum, of which the multiplier uses 252.
-/

namespace CairoTrace.EcOp

def steps : Nat := 256

def scalarBits : Nat := 252

/-- What a trace holds of an instance. -/
structure Witness where
  inst : EcOpInstance
  p : Point
  q : Point
  m : Felt
  doubling : List DoublingStep
  sum : List SumStep
  r : Point

def Witness.ofInstance (inst : EcOpInstance) : Except BuiltinError Witness := do
  let p ← Point.ofWords inst.pX inst.pY
  let q ← Point.ofWords inst.qX inst.qY
  let m ← feltOfWord inst.m
  let doubling := doublingSteps steps q
  let (sum, r) ← sumSteps m.val (doubling.map (·.point)) p
  return { inst, p, q, m, doubling, sum, r }

/-- A fixed multiplier of the generator. -/
def dummyScalar : Scalar := .ofNat 0x636169726f2d616972206563206f702064756d6d7920706f696e74

/-- The instance that fills the unused places of a trace: the generator added once to a fixed
multiple of it. -/
def dummyInstance (index : Nat) : EcOpInstance :=
  let p := dummyScalar * Point.generator
  ⟨index, p.x.val, p.y.val, Point.generator.x.val, Point.generator.y.val, 1⟩

def Witness.dummy (index : Nat) : Except BuiltinError Witness :=
  Witness.ofInstance (dummyInstance index)

/-- The sum of `sum` and the multiples of `point` for the digits of `m` from digit `i` on, of
which there are `n`. -/
def multiplySteps (m : Word) : (n i : Nat) → (point sum : Point) → Except BuiltinError Point
  | 0, _, _, sum => .ok sum
  | n + 1, i, point, sum =>
    if sum.x = point.x then .error (.xCollision i)
    else multiplySteps m n (i + 1) point.double (if m.testBit i then sum + point else sum)

/-- The point `start + m·point`, unless its sum has no trace. -/
def multiply (m : Word) (point start : Point) : Except BuiltinError Point :=
  if scalarBits < bitLength m then .error (.invalidScalar m)
  else multiplySteps m (steps - 1) 0 point start

end CairoTrace.EcOp
