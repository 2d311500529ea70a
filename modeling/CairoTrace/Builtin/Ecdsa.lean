import CairoTrace.Builtin.EcOp

/-!
# Signatures

Instances of the builtin that checks a signature `(r, w)` of a message `z` by a key of which only
the first coordinate is given. With the generator `G` and one of the two keys `Q` the trace adds
three sums, `z·G`, `r·Q` and `w·B` for `B = z·G + r·Q`; the signature is valid if `w·B` has the
first coordinate `r`. The sums start at a shift point or its negative, which cancels out of every
result.
-/

namespace CairoTrace.Ecdsa

/-- The digits of a message and of the numbers of a signature. -/
def scalarBits : Nat := 251

/-- The point at which sums start. -/
def shift : Point := .affine
  (.ofNat 0x49ee3eba8c1600700ee1b87eb599f16716b0b1022947733551fde4050ca6804)
  (.ofNat 0x3ca0cfe4b3bc6ddf346d49d06ea0ed34e621062c0e056c1d0405d266e10268a)

/-- What a trace holds of an instance. -/
structure Witness where
  inst : EcdsaInstance
  key : Point
  message : Felt
  r : Felt
  w : Felt
  /-- The sum of `z·G` from the negative of the shift point. -/
  generatorSum : List SumStep
  /-- The sum of `r·Q` from the shift point, and then that of `w·B`. -/
  keySum : List SumStep
  /-- The doublings of `Q`, and then those of `B`. The last point of each is not doubled, and
  holds in place of a slope the inverse of `r` and that of `w`. -/
  doubling : List DoublingStep
  b : Point
  bSlope : Felt
  bXDiffInv : Felt
  /-- The slope between `w·B` from the shift point and the negative of the shift point. -/
  rPointSlope : Felt
  rPointXDiffInv : Felt

def generatorPoints : List Point := (doublingSteps EcOp.steps Point.generator).map (·.point)

/-- Messages and the numbers of a signature are positive and have 251 digits at most. -/
def checkScalar (v : Word) : Except BuiltinError Felt :=
  if v = 0 ∨ scalarBits < bitLength v then .error (.invalidScalar v) else .ok (.ofNat v)

/-- Doublings whose last slope is replaced. -/
def withLastSlope (slope : Felt) (steps : List DoublingStep) : List DoublingStep :=
  steps.modify (steps.length - 1) ({ · with slope })

/-- The witness of an instance whose key is `key`. -/
def Witness.ofKey (inst : EcdsaInstance) (key : Point) (message r w : Felt) :
    Except BuiltinError Witness := do
  let (generatorSum, zG) ← sumSteps inst.message generatorPoints (-shift)
  let keyDoubling := doublingSteps EcOp.steps key
  let (rSum, rQ) ← sumSteps inst.r (keyDoubling.map (·.point)) shift
  if zG.x = rQ.x then throw (.invalidSignature inst.index)
  let bXDiffInv := (zG.x - rQ.x)⁻¹
  let b := zG + rQ
  let bDoubling := doublingSteps EcOp.steps b
  let (wSum, wB) ← sumSteps inst.w (bDoubling.map (·.point)) shift
  if wB.x = shift.x then throw (.invalidSignature inst.index)
  let rPointXDiffInv := (wB.x - shift.x)⁻¹
  if (wB + -shift).x ≠ r then throw (.invalidSignature inst.index)
  return {
    inst, key, message, r, w, generatorSum
    keySum := rSum ++ wSum
    doubling := withLastSlope r⁻¹ keyDoubling ++ withLastSlope w⁻¹ bDoubling
    b
    bSlope := (zG.y - rQ.y) * bXDiffInv
    bXDiffInv
    rPointSlope := (wB.y + shift.y) * rPointXDiffInv
    rPointXDiffInv }

/-- The witness of an instance, for the first of the two possible keys that verifies. -/
def Witness.ofInstance (inst : EcdsaInstance) : Except BuiltinError Witness := do
  let message ← checkScalar inst.message
  let r ← checkScalar inst.r
  let w ← checkScalar inst.w
  let keyX ← feltOfWord inst.keyX
  match Point.liftX? keyX with
  | none => throw (.invalidPublicKey inst.keyX)
  | some (low, high) =>
    match ofKey inst low message r w, fun _ : Unit => ofKey inst high message r w with
    | .ok witness, _ => return witness
    | .error _, other =>
      match other () with
      | .ok witness => return witness
      | .error _ => throw (.invalidSignature inst.index)

/-- Signs a message: with the first coordinate `r` of `nonce·G`, the number `w` is
`nonce / (z + r·key)`. -/
def sign (index : Nat) (key : Scalar) (message : Word) (nonce : Scalar) :
    Except BuiltinError EcdsaInstance := do
  let r := (nonce * Point.generator).x.val
  let divisor := Residue.ofNat message + .ofNat r * key
  if divisor.isZero then throw (.invalidScalar message)
  return { index, keyX := (key * Point.generator).x.val, message, r, w := (nonce / divisor).val }

/-- The instance that fills the unused places of a trace: a signature of a fixed message. -/
def dummyInstance (index : Nat) : Except BuiltinError EcdsaInstance :=
  sign index
    (.ofNat 0x169726f2d60964620656364736123e8fe1c81a4aa56ebd7d379ec8a8524a1a5)
    0x636169726f2d6169722065636473612064756d6d79206d657373616765
    (.ofNat 0x636169726f2d6169722065636473612064756d6d79206e6f6e6365)

def Witness.dummy (index : Nat) : Except BuiltinError Witness := do
  Witness.ofInstance (← dummyInstance index)

end CairoTrace.Ecdsa
