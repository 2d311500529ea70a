import CairoTrace.Builtin.Error

/-!
# The Stark curve

The curve `y² = x³ + x + β` over the Stark field. Its points are added by chords and tangents; the
formulas do not mention `β`, so they also add points that are not on the curve.
-/

namespace CairoTrace

inductive Point
  | infinity
  | affine (x y : Felt)
deriving DecidableEq, Inhabited

namespace Point

def curveConstant : Felt := .ofNat 0x6f21413efbe40de150e596d72f7a8c5609ad26c15c915c1f4cdfcb99cee9e89

/-- The chosen generator of the group of points. -/
def generator : Point := affine
  (.ofNat 0x1ef15c18599971b7beced415a40f0c7deacfd9b0d1819e03d723d8bc943cfca)
  (.ofNat 0x5668060aa49730b7be4801df46ec62de53ecd11abe43a32873000c36e8dc1f)

/-- The first coordinate, zero at infinity. -/
def x : Point → Felt
  | infinity => 0
  | affine x _ => x

/-- The second coordinate, zero at infinity. -/
def y : Point → Felt
  | infinity => 0
  | affine _ y => y

def rightSide (x : Felt) : Felt := x * x * x + x + curveConstant

def onCurve : Point → Bool
  | infinity => true
  | affine x y => y * y == rightSide x

def neg : Point → Point
  | infinity => infinity
  | affine x y => affine x (-y)

instance : Neg Point := ⟨neg⟩

/-- The slope of the tangent; at infinity, that of the coordinates there. -/
def tangent (p : Point) : Felt := (p.x * p.x + p.x * p.x + p.x * p.x + 1) / (p.y + p.y)

/-- The slope of the chord between points of different first coordinates. -/
def chord (p q : Point) : Felt := (q.y - p.y) / (q.x - p.x)

/-- Whether the tangent has no slope. -/
def tangentIsVertical (p : Point) : Bool := p.y.isZero

/-- The slope of the line through two points, which has none when one is at infinity or each is
the negative of the other. -/
def slope? : Point → Point → Option Felt
  | affine x₁ y₁, affine x₂ y₂ =>
    if x₁ ≠ x₂ then some (chord (affine x₁ y₁) (affine x₂ y₂))
    else if y₁ ≠ y₂ then none
    else some (tangent (affine x₁ y₁))
  | _, _ => none

/-- The third intersection of a line of slope `s` through both points, reflected in the first
axis. -/
def join (s : Felt) (p q : Point) : Point :=
  let x := s * s - p.x - q.x
  affine x (s * (p.x - x) - p.y)

def add : Point → Point → Point
  | infinity, q => q
  | p, infinity => p
  | affine x₁ y₁, affine x₂ y₂ =>
    let p := affine x₁ y₁
    let q := affine x₂ y₂
    if x₁ ≠ x₂ then join (chord p q) p q
    else if y₁ ≠ y₂ ∨ p.tangentIsVertical then infinity
    else join p.tangent p p

instance : Add Point := ⟨add⟩

def double (p : Point) : Point := p + p

/-- `k` times a point, for `k` below `2 ^ bits`. -/
def mulBits (p : Point) : (bits : Nat) → (k : Nat) → Point
  | 0, _ => infinity
  | bits + 1, k =>
    let twice := double (mulBits p bits (k / 2))
    if k % 2 = 1 then twice + p else twice

def mul (k : Scalar) (p : Point) : Point := mulBits p (bitLength k.val) k.val

instance : HMul Scalar Point Point := ⟨mul⟩

/-- The point of two words, which have to be the coordinates of a point of the curve. -/
def ofWords (x y : Word) : Except BuiltinError Point :=
  match Residue.ofCanonical? x, Residue.ofCanonical? y with
  | some x', some y' =>
    if (affine x' y').onCurve then .ok (affine x' y') else .error (.invalidPoint x y)
  | _, _ => .error (.invalidPoint x y)

/-- The points with a first coordinate, the one with the smaller second coordinate first. -/
def liftX? (x : Felt) : Option (Point × Point) :=
  (rightSide x).sqrt?.map fun y =>
    if y.val < (-y).val then (affine x y, affine x (-y)) else (affine x (-y), affine x y)

end Point

end CairoTrace
