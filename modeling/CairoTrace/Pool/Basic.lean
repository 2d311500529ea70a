import CairoTrace.Layout.Error

/-!
# Filling pools

The cells of a pool that no access needs are free. They take the values that the pool misses, in
ascending order, and then a default.
-/

namespace CairoTrace

namespace Pool

/-- The numbers among `v`, `v + 1`, … `v + count - 1` that are not used, at most `limit` of them. -/
def missing (used : Nat → Bool) : (limit count v : Nat) → List Nat
  | _, 0, _ => []
  | 0, _ + 1, _ => []
  | limit + 1, count + 1, v =>
    if used v then missing used (limit + 1) count (v + 1)
    else v :: missing used limit count (v + 1)

/-- The number of free cells. The first cell has position `i`. -/
def freeCells {α : Type} (isOpen : Nat → Bool) : (i : Nat) → List (Option α) → Nat
  | _, [] => 0
  | i, cell :: rest =>
    (if cell.isNone && isOpen i then 1 else 0) + freeCells isOpen (i + 1) rest

/-- Fills the free cells at positions that are open with `values` and then with `default`, and
returns the values that are left over. The first cell has position `i`. -/
def fill {α : Type} (isOpen : Nat → Bool) (default : α) :
    (i : Nat) → List (Option α) → (values : List α) → List (Option α) × List α
  | _, [], values => ([], values)
  | i, cell :: rest, values =>
    if cell.isNone && isOpen i then
      let (filled, left) := fill isOpen default (i + 1) rest values.tail
      (some (values.headD default) :: filled, left)
    else
      let (filled, left) := fill isOpen default (i + 1) rest values
      (cell :: filled, left)

end Pool

end CairoTrace
