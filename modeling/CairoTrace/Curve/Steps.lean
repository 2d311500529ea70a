import CairoTrace.Curve.Point

/-!
# Stepwise multiples of a point

A multiple `m·q` is added to a starting point one binary digit of `m` at a time: step `i` adds
`2^i·q` if digit `i` is set. The constraints of a trace divide by the difference of the first
coordinates of the sum and the point of a step, so a sum that reaches the first coordinate of its
next point has no trace; only the last step, whose digit is never set, is exempt.
-/

namespace CairoTrace

/-- A point and the slope of its tangent, by which it is doubled. -/
structure DoublingStep where
  point : Point
  slope : Felt
deriving DecidableEq

/-- The sum before a digit is used. -/
structure SumStep where
  point : Point
  /-- The multiplier without the digits that have been used. -/
  suffix : Felt
  /-- The slope of the chord to the point of the step, zero if its digit is not set. -/
  slope : Felt
  /-- The inverse of the difference of the first coordinates of the sum and the point of the step,
  zero on the last step. -/
  xDiffInv : Felt
deriving DecidableEq

def doublingSteps : (n : Nat) → Point → List DoublingStep
  | 0, _ => []
  | n + 1, p => ⟨p, p.tangent⟩ :: doublingSteps n p.double

/-- The steps that add to `sum` those of `points` whose digit is set in `m`, of which step `i` is
the first, and the sum they lead to. -/
def sumStepsFrom (m : Word) : (i : Nat) → List Point → Point →
    Except BuiltinError (List SumStep × Point)
  | _, [], sum => .ok ([], sum)
  | i, q :: rest, sum => do
    if rest ≠ [] ∧ sum.x = q.x then throw (.xCollision i)
    let xDiffInv := if rest = [] then 0 else (sum.x - q.x)⁻¹
    let taken := (m >>> i) % 2 = 1
    let step : SumStep := {
      point := sum
      suffix := .ofNat (m >>> i)
      slope := if taken then (sum.y - q.y) * xDiffInv else 0
      xDiffInv }
    let (steps, last) ← sumStepsFrom m (i + 1) rest (if taken then sum + q else sum)
    return (step :: steps, last)

/-- The steps that add to `start` those of `points` whose digit is set in `m`, and their sum. -/
def sumSteps (m : Word) (points : List Point) (start : Point) :
    Except BuiltinError (List SumStep × Point) :=
  sumStepsFrom m 0 points start

end CairoTrace
