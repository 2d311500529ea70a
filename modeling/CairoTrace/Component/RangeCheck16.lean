import CairoTrace.Component.Basic
import CairoTrace.Pool.Permutation
import CairoTrace.Pool.RangeCheckPool

/-!
# Range checks of sixteen digits

The pool of range checked values is a permutation of a column that climbs from a smallest to a
largest value by steps of one at most.
-/

namespace CairoTrace

namespace RangeCheck16

def pool : VirtualColumn := ⟨Column.rangeCheckPool, 1, 0⟩
def sorted : VirtualColumn := ⟨Column.rangeCheckSorted, 1, 0⟩

/-- The constraints, with the products of the permutation in the given column. -/
def constraints (column : Nat) : List Constraint :=
  let z := Challenge.rangeCheckZ.term
  let product : VirtualColumn := ⟨column, 1, 0⟩
  [{ name := "rc16/perm/init0"
     expr := (z - sorted.current) * product.current + pool.current - z, domain := .first 0 },
    { name := "rc16/perm/step0"
      expr := (z - sorted.next) * product.next - (z - pool.next) * product.current
      domain := .all, exclusions := [.last] },
    { name := "rc16/perm/last", expr := product.current - 1, domain := .last },
    { name := "rc16/diff_is_bit", expr := .booleanity (sorted.next - sorted.current)
      domain := .all, exclusions := [.last] },
    { name := "rc16/minimum", expr := sorted.current - Hint.rangeCheckMin.term
      domain := .first 0 },
    { name := "rc16/maximum", expr := sorted.current - Hint.rangeCheckMax.term
      domain := .last }]

/-- The writes of the pool and of its sorted copy. -/
def writes (values sortedValues : List Nat) : List Write :=
  values.zipIdx.map (fun (v, i) => .at' pool i (.ofNat v)) ++
    sortedValues.zipIdx.map fun (v, i) => .at' sorted i (.ofNat v)

/-- The column of products over the pool and its sorted copy. -/
def interaction (challenges pool sorted : List Felt) : List Felt :=
  let z := Challenge.rangeCheckZ.value challenges
  Permutation.cumulativeProduct (List.zipWith (fun a b => (z - a, z - b)) pool sorted)

end RangeCheck16

end CairoTrace
