import CairoTrace.Component.Basic
import CairoTrace.Pool.DilutedPool
import CairoTrace.Pool.Permutation

/-!
# Checks of diluted numbers

The pool of diluted numbers is a permutation of a sorted column. The differences `u` of the sorted
column are aggregated by `acc ↦ acc·(1 + z·u) + α·u²`, which ends at the number of the public
input only if the column starts at zero and steps through every diluted number.
-/

namespace CairoTrace

/-- The columns of the check. -/
structure DilutedCheck where
  dilution : Dilution
  pool : Nat
  sorted : Nat
  /-- The column of the products of the permutation. -/
  products : Nat
  /-- The column of the aggregate. -/
  aggregate : Nat
deriving DecidableEq

namespace DilutedCheck

def constraints (c : DilutedCheck) : List Constraint :=
  let z := Challenge.dilutedZ.term
  let pool : VirtualColumn := ⟨c.pool, 1, 0⟩
  let sorted : VirtualColumn := ⟨c.sorted, 1, 0⟩
  let product : VirtualColumn := ⟨c.products, 1, 0⟩
  let aggregate : VirtualColumn := ⟨c.aggregate, 1, 0⟩
  let u := sorted.next - sorted.current
  [{ name := "diluted_check/permutation/init0"
     expr := (z - sorted.current) * product.current + pool.current - z, domain := .first 0 },
    { name := "diluted_check/permutation/step0"
      expr := (z - sorted.next) * product.next - (z - pool.next) * product.current
      domain := .all, exclusions := [.last] },
    { name := "diluted_check/permutation/last", expr := product.current - 1, domain := .last },
    { name := "diluted_check/init", expr := aggregate.current - 1, domain := .first 0 },
    { name := "diluted_check/first_element", expr := sorted.current, domain := .first 0 },
    { name := "diluted_check/step"
      expr := aggregate.next -
        (aggregate.current * (1 + Challenge.aggregateZ.term * u) +
          Challenge.aggregateAlpha.term * u * u)
      domain := .all, exclusions := [.last] },
    { name := "diluted_check/last", expr := aggregate.current - Hint.dilutedAggregate.term
      domain := .last }]

/-- The dilution of a number. -/
def diluted (c : DilutedCheck) (v : Nat) : Felt :=
  .ofNat (dilute v c.dilution.spacing c.dilution.bits)

/-- The writes of the pool and of its sorted copy. -/
def writes (c : DilutedCheck) (values sortedValues : List Nat) : List Write :=
  values.zipIdx.map (fun (v, i) => .cell c.pool i (c.diluted v)) ++
    sortedValues.zipIdx.map fun (v, i) => .cell c.sorted i (c.diluted v)

/-- The column of products over the pool and its sorted copy. -/
def permutation (challenges pool sorted : List Felt) : List Felt :=
  let z := Challenge.dilutedZ.value challenges
  Permutation.cumulativeProduct (List.zipWith (fun a b => (z - a, z - b)) pool sorted)

/-- The values of the aggregate after `acc` over a list of diluted numbers. -/
def aggregateFrom (z alpha : Felt) : (acc : Felt) → List Felt → List Felt
  | acc, a :: b :: rest =>
    let u := b - a
    let next := acc * (1 + z * u) + alpha * u.square
    next :: aggregateFrom z alpha next (b :: rest)
  | _, _ => []

/-- The column of the aggregate. -/
def aggregation (challenges sorted : List Felt) : List Felt :=
  1 :: aggregateFrom (Challenge.aggregateZ.value challenges)
    (Challenge.aggregateAlpha.value challenges) 1 sorted

end DilutedCheck

end CairoTrace
