import CairoTrace.Curve.Steps
import CairoTrace.Json.Reader
import CairoTrace.Run.PrivateInput

/-!
# The Pedersen hash

The hash of `a` and `b` is the first coordinate of
`shift + a_low·P₁ + a_high·P₂ + b_low·P₃ + b_high·P₄`, where the low part of an operand is its 248
lowest digits and the high part the four above them. A trace adds the points one digit at a time:
each operand takes 256 rows, of which the last four add nothing.
-/

namespace CairoTrace.Pedersen

def lowBits : Nat := 248

def highBits : Nat := 4

def inputBits : Nat := lowBits + highBits

def stepsPerInput : Nat := 256

/-- A point doubled `0`, `1`, … `n - 1` times. -/
def doublings : (n : Nat) → Point → List Point
  | 0, _ => []
  | n + 1, p => p :: doublings n p.double

/-- The points that the digits of an operand add, and nothing for the rows above its digits. -/
def digitPoints (low high : Point) : List Point :=
  doublings lowBits low ++ doublings highBits high ++
    List.replicate (stepsPerInput - inputBits) Point.infinity

/-- The points that the hash is defined over. -/
structure Params where
  shift : Point
  aLow : Point
  aHigh : Point
  bLow : Point
  bHigh : Point
  /-- The points of the rows of each operand, computed once. -/
  aRows : List Point := digitPoints aLow aHigh
  bRows : List Point := digitPoints bLow bHigh
  aRows_eq : aRows = digitPoints aLow aHigh := by rfl
  bRows_eq : bRows = digitPoints bLow bHigh := by rfl

namespace Params

def rows (params : Params) : List Point := params.aRows ++ params.bRows

/-- A fixed multiple of the generator for each of the points. As the multipliers are known, the
hash is not collision resistant; it is meant to try out traces. -/
def insecure : Params where
  shift := scaled 0x636169726f2d61697220706564657273656e20736869667420706f696e74
  aLow := scaled 0x636169726f2d61697220706564657273656e20706f696e74206f6e652e2e
  aHigh := scaled 0x636169726f2d61697220706564657273656e20706f696e742074776f2e2e
  bLow := scaled 0x636169726f2d61697220706564657273656e20706f696e74207468726565
  bHigh := scaled 0x636169726f2d61697220706564657273656e20706f696e7420666f75722e
where
  /-- A multiple of the generator. -/
  scaled (n : Nat) : Point := (Residue.ofNat n : Scalar) * Point.generator

def readPoint : Json.Reader (Word × Word) :=
  Json.numbers [("x", Json.numeral), ("y", Json.numeral)] fun
    | [x, y] => some (x, y)
    | _ => none

open Json (Member) in
/-- The members of the record of the points: the shift point and a list of the four others. -/
def members : List (Member (Option (Word × Word) × Option (List (Word × Word)))) := [
  .required "shift_point" (·.1) readPoint fun s p => (some p, s.2),
  .required "points" (·.2) (Json.vector 4 readPoint) fun s ps => (s.1, some ps)]

def ofJson (text : String) : Except BuiltinError Params := do
  let read := Json.record members (none, none) fun s => return (← s.1, ← s.2)
  let (shift, points) ← (Json.parse read text).mapError .document
  let shift ← Point.ofWords shift.1 shift.2
  match ← points.mapM fun p => Point.ofWords p.1 p.2 with
  | [aLow, aHigh, bLow, bHigh] => return { shift, aLow, aHigh, bLow, bHigh }
  | _ => throw (.document .mismatched)

end Params

/-- What an operand adds to the hash. -/
def operandPoint (low high : Point) (v : Felt) : Point :=
  (Residue.ofNat (v.val % (1 <<< lowBits)) : Scalar) * low +
    (Residue.ofNat (v.val >>> lowBits) : Scalar) * high

def hash (params : Params) (a b : Felt) : Felt :=
  (params.shift + operandPoint params.aLow params.aHigh a +
    operandPoint params.bLow params.bHigh b).x

/-- The sum before a digit is used. -/
structure Step where
  point : Point
  /-- The operand without the digits that have been used. -/
  suffix : Felt
  /-- The slope of the chord to the point of the step, zero if its digit is not set. -/
  slope : Felt
deriving DecidableEq

/-- The steps that add to `sum` those of `points` whose digit is set in `v`. The first step uses
digit `i` and is on row `first + i` of the instance. -/
def stepsFrom (v : Nat) (first : Nat) : (i : Nat) → List Point → Point →
    Except BuiltinError (List Step)
  | _, [], _ => .ok []
  | i, q :: rest, sum => do
    let taken := (v >>> i) % 2 = 1
    if taken ∧ sum.x = q.x then throw (.xCollision (first + i))
    let step : Step := {
      point := sum
      suffix := .ofNat (v >>> i)
      slope := if taken then (sum.y - q.y) / (sum.x - q.x) else 0 }
    return step :: (← stepsFrom v first (i + 1) rest (if taken then sum + q else sum))

/-- What a trace holds of an instance. -/
structure Witness where
  inst : PedersenInstance
  a : Felt
  b : Felt
  output : Felt
  aSteps : List Step
  bSteps : List Step

/-- The sum after steps, whose last one adds nothing. -/
def lastPoint (steps : List Step) : Point := (steps.getLast?.map (·.point)).getD .infinity

def Witness.ofInstance (params : Params) (inst : PedersenInstance) :
    Except BuiltinError Witness := do
  let a ← feltOfWord inst.a
  let b ← feltOfWord inst.b
  let aSteps ← stepsFrom a.val 0 0 params.aRows params.shift
  let bSteps ← stepsFrom b.val stepsPerInput 0 params.bRows (lastPoint aSteps)
  return { inst, a, b, output := (lastPoint bSteps).x, aSteps, bSteps }

end CairoTrace.Pedersen
