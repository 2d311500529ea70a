import CairoTrace.Pool.Basic
import Std.Data.HashSet

/-!
# The pool of range checked values

The values of sixteen digits that a trace range checks, by row. The sorted pool has to climb from
the smallest to the largest value by steps of one at most, so free rows take the values that are
missing.
-/

namespace CairoTrace

abbrev RangeCheckPool := Array (Option Nat)

namespace RangeCheckPool

def ofSize (rows : Nat) : RangeCheckPool := Array.replicate rows none

def push (p : RangeCheckPool) (row v : Nat) : RangeCheckPool := p.setIfInBounds row (some v)

/-- The values that have been pushed. -/
def values (p : RangeCheckPool) : List Nat := p.toList.filterMap id

/-- The pool in the order of the trace and sorted. All values have to lie in `[least, greatest]`;
free rows take what is missing of that range, and then `greatest`. -/
def finish (p : RangeCheckPool) (least greatest : Nat) :
    RangeCheckPool × Except LayoutError (List Nat × List Nat) :=
  match (p.values.filter fun v => v < least || greatest < v).min? with
  | some v => (p, .error (.rangeCheckBounds v least greatest))
  | none =>
    let used := Std.HashSet.ofList p.values
    let any (_ : Nat) : Bool := true
    let gaps := Pool.missing used.contains (Pool.freeCells any 0 p.toList + 1)
      (greatest + 1 - least) least
    let (cells, left) := Pool.fill any greatest 0 p.toList gaps
    if left ≠ [] then (cells.toArray, .error (.poolExhausted "range check"))
    else
      let pool := cells.map (·.getD greatest)
      (#[], .ok (pool, pool.mergeSort (· ≤ ·)))

end RangeCheckPool

end CairoTrace
