import CairoTrace.Pool.Basic
import Std.Data.HashSet

/-!
# The pool of diluted values

The numbers whose dilutions a trace uses, by row. The sorted pool has to hold every number below
`2 ^ bits`, so free rows take the numbers that are missing.
-/

namespace CairoTrace

structure DilutedPool where
  cells : Array (Option Nat)
  bits : Nat

namespace DilutedPool

def ofSize (rows bits : Nat) : DilutedPool := ⟨Array.replicate rows none, bits⟩

def push (p : DilutedPool) (row v : Nat) : DilutedPool :=
  { p with cells := p.cells.setIfInBounds row (some v) }

/-- The pool in the order of the trace and sorted, before dilution. -/
def finish (p : DilutedPool) : DilutedPool × Except LayoutError (List Nat × List Nat) :=
  let used := Std.HashSet.ofList (p.cells.toList.filterMap id)
  let any (_ : Nat) : Bool := true
  let gaps := Pool.missing used.contains (Pool.freeCells any 0 p.cells.toList + 1) (1 <<< p.bits) 0
  let (cells, left) := Pool.fill any 0 0 p.cells.toList gaps
  if left ≠ [] then ({ p with cells := cells.toArray }, .error (.poolExhausted "diluted"))
  else
    let pool := cells.map (·.getD 0)
    ({ p with cells := #[] }, .ok (pool, pool.mergeSort (· ≤ ·)))

end DilutedPool

end CairoTrace
