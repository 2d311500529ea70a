import CairoTrace.Component.Basic
import CairoTrace.Pool.MemoryPool
import CairoTrace.Pool.Permutation

/-!
# Read-only memory

The accesses to memory, in pairs of an address and a value, are a permutation of pairs sorted by
address, in which the address climbs by one at most and the value changes only with the address.
The pairs kept for the public memory hold zeros in the pool, and stand for the public memory in
the product of the permutation.
-/

namespace CairoTrace

namespace MemoryCheck

def address : VirtualColumn := ⟨Column.memoryPool, memoryStep, 0⟩
def value : VirtualColumn := ⟨Column.memoryPool, memoryStep, 1⟩
def sortedAddress : VirtualColumn := ⟨Column.memorySorted, memoryStep, 0⟩
def sortedValue : VirtualColumn := ⟨Column.memorySorted, memoryStep, 1⟩
def publicAddress : VirtualColumn := ⟨Column.memoryPool, publicMemoryStep, publicMemoryOffset⟩
def publicValue : VirtualColumn := publicAddress.valueColumn

/-- The products of the permutation in a column. -/
def products (column : Nat) : VirtualColumn := ⟨column, memoryStep, 0⟩

/-- The constraints, with the products in the given column. -/
def constraints (column : Nat) : List Constraint :=
  let z := Challenge.memoryZ.term
  let alpha := Challenge.memoryAlpha.term
  let product := products column
  let every : Rows := .every memoryStep 0
  let last : Rows := .fromEnd memoryStep
  let publicRows : Rows := .every publicMemoryStep 0
  let climb := sortedAddress.next - sortedAddress.current
  [{ name := "memory/multi_column_perm/perm/init0"
     expr := (z - (sortedAddress.current + alpha * sortedValue.current)) * product.current +
       address.current + alpha * value.current - z
     domain := .first 0 },
    { name := "memory/multi_column_perm/perm/step0"
      expr := (z - (sortedAddress.next + alpha * sortedValue.next)) * product.next -
        (z - (address.next + alpha * value.next)) * product.current
      domain := every, exclusions := [last] },
    { name := "memory/multi_column_perm/perm/last"
      expr := product.current - Hint.memoryQuotient.term, domain := last },
    { name := "memory/diff_is_bit", expr := .booleanity climb, domain := every
      exclusions := [last] },
    { name := "memory/is_func"
      expr := (climb - 1) * (sortedValue.current - sortedValue.next)
      domain := every, exclusions := [last] },
    { name := "memory/initial_addr", expr := sortedAddress.current - 1, domain := .first 0 },
    { name := "public_memory_addr_zero", expr := publicAddress.current, domain := publicRows },
    { name := "public_memory_value_zero", expr := publicValue.current, domain := publicRows }]

/-- The writes of the pool and of its sorted copy. -/
def writes (pool sorted : List MemoryEntry) : List Write :=
  let entry (a v : VirtualColumn) (i : Nat) (e : MemoryEntry) : List Write :=
    [.at' a i (.ofNat e.address), .at' v i e.value]
  pool.zipIdx.flatMap (fun (e, i) => entry address value i e) ++
    sorted.zipIdx.flatMap fun (e, i) => entry sortedAddress sortedValue i e

/-- The elements at even places paired with those after them. -/
def pairs : List Felt → List (Felt × Felt)
  | a :: v :: rest => (a, v) :: pairs rest
  | _ => []

/-- The column of products over the pool and its sorted copy; a product is on every other row. -/
def interaction (challenges pool sorted : List Felt) : List Felt :=
  let z := Challenge.memoryZ.value challenges
  let alpha := Challenge.memoryAlpha.value challenges
  let term (entry : Felt × Felt) : Felt := z - (alpha * entry.2 + entry.1)
  let terms := List.zipWith (fun a b => (term a, term b)) (pairs pool) (pairs sorted)
  (Permutation.cumulativeProduct terms).flatMap fun p => [p, 0]

end MemoryCheck

end CairoTrace
