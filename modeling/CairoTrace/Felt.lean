import CairoTrace.Residue

/-!
# The Stark field

The field of `2^251 + 17·2^192 + 1` elements and the field of scalars of the Stark curve. The
multiplicative group of the Stark field is generated by three, and its order is divisible by
`2^192`, so it has elements of every order `2^k` with `k ≤ 192`; those generate the domains on
which execution traces are interpolated.
-/

namespace CairoTrace

/-- `2^251 + 17·2^192 + 1`. -/
def starkPrime : Nat := 0x800000000000011000000000000000000000000000000000000000000000001

/-- The number of points of the Stark curve, a prime. -/
def curveOrder : Nat := 0x800000000000010ffffffffffffffffb781126dcae7b2321e66a241adc64d2f

instance : Modulus starkPrime := ⟨by decide⟩
instance : Modulus curveOrder := ⟨by decide⟩

abbrev Felt := Residue starkPrime

/-- A multiplier of points of the Stark curve. -/
abbrev Scalar := Residue curveOrder

def isPowerOfTwo (n : Nat) : Bool := n == 1 <<< n.log2

/-- The number of binary digits, none for zero. -/
def bitLength (n : Nat) : Nat := if n = 0 then 0 else n.log2 + 1

namespace Felt

/-- The bytes that a field element takes in a memory file. -/
def byteLength : Nat := (bitLength starkPrime + 7) / 8

/-- A generator of the multiplicative group. -/
def generator : Felt := .ofNat 3

/-- The largest `k` such that the multiplicative group has an element of order `2 ^ k`. -/
def twoAdicity : Nat := 192

/-- The odd part of the order of the multiplicative group. -/
def oddOrder : Nat := (starkPrime - 1) / (1 <<< twoAdicity)

/-- The chosen element of order `n`, for `n` a power of two. -/
def rootOfUnity (n : Nat) : Felt := generator ^ ((starkPrime - 1) / n)

/-- The chosen element of order `n`; there is one for the powers of two up to `2 ^ 192`. -/
def rootOfUnity? (n : Nat) : Option Felt :=
  if isPowerOfTwo n && n.log2 ≤ twoAdicity then some (rootOfUnity n) else none

/-- Removes from `power` its part of order above `2 ^ k`, keeping `root² = a·power` for the `a`
it started with. `twist` has order `2 ^ (k + 1)`: when `power` has order `2 ^ k` exactly, `power`
is multiplied by the square of `twist` and `root` by `twist`. -/
def sqrtLoop : (k : Nat) → (twist power root : Felt) → Felt
  | 0, _, _, root => root
  | k + 1, twist, power, root =>
    if power ^ (1 <<< k) = 1 then sqrtLoop k (twist * twist) power root
    else sqrtLoop k (twist * twist) (power * (twist * twist)) (root * twist)

/-- A square root, for the elements that have one. -/
def sqrt? (a : Felt) : Option Felt :=
  if a.isZero then some 0
  else if a.isSquare then
    let root := a ^ ((oddOrder + 1) / 2)
    some (sqrtLoop (twoAdicity - 1) (generator ^ oddOrder) (a ^ oddOrder) root)
  else none

end Felt

end CairoTrace
