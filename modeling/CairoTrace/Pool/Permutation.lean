import CairoTrace.Builtin.Dilution
import CairoTrace.Constraint.Error
import CairoTrace.Layout.Error
import CairoTrace.Run.PublicInput

/-!
# Permutation arguments

A pool and its sorted copy are compared by the product of the quotients of their terms, which
ends at one when the two are permutations of each other. The product of the memory ends at a
quotient that stands for the public memory, and the aggregate of the diluted values at a number
with a closed form.
-/

namespace CairoTrace

namespace Permutation

/-- The running products of numerators and of denominators, from given products on. -/
def runningProducts : (numerator denominator : Felt) → List (Felt × Felt) → List (Felt × Felt)
  | _, _, [] => []
  | p, q, (a, b) :: rest => (p * a, q * b) :: runningProducts (p * a) (q * b) rest

/-- The running products of quotients. A product is zero from the first denominator on that is
zero. -/
def cumulativeProduct (terms : List (Felt × Felt)) : List Felt :=
  (runningProducts 1 1 terms).map fun (p, q) => p * q⁻¹

def memoryTerm (z alpha : Felt) (e : MemoryEntry) : Felt := z - (alpha * e.value + .ofNat e.address)

/-- The last product of the memory: a trace of length `n` has a place for public memory every
`step` rows, which holds zeros in the pool and an entry of the public memory, or `padding`, in the
sorted pool. -/
def memoryQuotient (z alpha : Felt) (n step : Nat) (publicMemory : List MemoryEntry)
    (padding : MemoryEntry) : Except LayoutError Felt :=
  let places := n / step
  let count := publicMemory.length
  if places < count then .error (.publicMemoryOverflow count places)
  else
    let entries := publicMemory.foldl (fun p e => p * memoryTerm z alpha e) 1
    let denominator := entries * memoryTerm z alpha padding ^ (places - count)
    if denominator.isZero then .error (.constraint .zeroDenominator)
    else .ok (z ^ places * denominator⁻¹)

/-- One step of the aggregate: from the product `p` and the sum `q` over the numbers below `2^i`
to those below `2^(i+1)`, where `x` is the difference of the dilutions of `2^i` and its
predecessor. -/
def aggregateStep (z : Felt) (p q x : Felt) : Felt × Felt :=
  let y := p + z * (x * p)
  (p * y, q + (q * y + x * (x * p)))

/-- The aggregate after `steps` doublings of the range, whose differences `x` grow by `growth`. -/
def aggregateFrom (z alpha multiplier : Felt) :
    (steps : Nat) → (p q x growth : Felt) → Felt
  | 0, p, q, _, _ => p + q * alpha
  | steps + 1, p, q, x, growth =>
    let x := x + growth
    let (p, q) := aggregateStep z p q x
    aggregateFrom z alpha multiplier steps p q x (growth * multiplier)

/-- The last value of the aggregate `acc ↦ acc·(1 + z·u) + α·u²` over the differences `u` of the
dilutions of successive numbers below `2 ^ bits`. A difference depends only on how often two
divides the number, so that each digit doubles the range in one step. -/
def dilutedAggregate (z alpha : Felt) (spacing bits : Nat) : Felt :=
  let multiplier : Felt := (Residue.ofNat 2) ^ spacing
  aggregateFrom z alpha multiplier (bits - 1) (z + 1) 1 1 (multiplier - .ofNat 2)

end Permutation

end CairoTrace
