import CairoTrace.InputError

/-!
# Faults of builtin instances

Why an instance of a builtin has no trace.
-/

namespace CairoTrace

inductive BuiltinError
  /-- The coordinates are no field elements or not those of a point. -/
  | invalidPoint (x y : Word)
  /-- The sum before a step and the point of the step have the same first coordinate. -/
  | xCollision (step : Nat)
  | valueTooLarge (value : Word) (bits : Nat)
  | invalidScalar (scalar : Word)
  /-- No point has the first coordinate of a public key. -/
  | invalidPublicKey (x : Word)
  | invalidSignature (index : Nat)
  | input (error : InputError)
  | document (fault : Json.Fault)
deriving DecidableEq

namespace BuiltinError

def message : BuiltinError → String
  | invalidPoint x y => s!"point ({x}, {y}) is not on the curve"
  | xCollision step =>
    s!"partial sum and the added point share an x coordinate at step {step}"
  | valueTooLarge value bits => s!"value {value} does not fit in {bits} bits"
  | invalidScalar scalar => s!"scalar {scalar} is outside the range the builtin accepts"
  | invalidPublicKey x => s!"no point on the curve has x coordinate {x}"
  | invalidSignature index => s!"signature of ecdsa instance {index} does not verify"
  | input error => error.message
  | document _ => "the document cannot be read"

end BuiltinError

def feltOfWord (w : Word) : Except BuiltinError Felt := (residueOf starkPrime w).mapError .input

/-- Refuses the words of more than `bits` digits. -/
def checkBits (w : Word) (bits : Nat) : Except BuiltinError Unit :=
  if bits < bitLength w then throw (.valueTooLarge w bits) else return ()

end CairoTrace
