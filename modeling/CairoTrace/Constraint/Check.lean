import CairoTrace.Constraint.Composition

/-!
# Checking constraints on a trace

Evaluates every constraint on every row that it applies to and reports the rows on which it is not
zero. Cells beyond the end of the trace are those at its start.
-/

namespace CairoTrace

/-- A constraint that does not hold on a row that it applies to. -/
structure Violation where
  constraint : Nat
  name : String
  row : Nat
deriving DecidableEq

namespace Constraint

/-- The rows that a constraint applies to, in ascending order. -/
def appliedRows (n : Nat) (c : Constraint) : List Nat :=
  (c.domain.toList n).filter fun row => ¬ c.exclusions.any (·.contains n row)

def valueAt (n : Nat) (columns periodic : Array (Array Felt)) (row : Nat)
    (e : Expr (BoundLeaf Cell)) : Felt :=
  e.eval (BoundLeaf.value
    (fun (column, offset) =>
      ((columns[column]?.getD #[])[Composition.wrapRow n row offset]?).getD 0)
    (fun i => Composition.lookupCyclic (periodic[i]?.getD #[]) row))

def failingRows (n : Nat) (columns periodic : Array (Array Felt)) (bindings : Bindings)
    (c : Constraint) : Except ConstraintError (List Nat) := do
  c.domain.validate n
  c.exclusions.forM (·.validate n)
  let expr ← c.expr.tryMap (Leaf.bind bindings
    fun (column, offset) => if column < columns.size then some (column, offset) else none)
  return (c.appliedRows n).filter fun row => ¬ (valueAt n columns periodic row expr).isZero

end Constraint

/-- The violations of constraints by a trace of length `n`, in the order of the constraints and
then of the rows. -/
def checkConstraints (n : Nat) (columns : List (Array Felt)) (constraints : List Constraint)
    (periodic : List PeriodicColumn) (challenges : List Felt) (hints : List (Option Felt)) :
    Except ConstraintError (List Violation) := do
  if ¬ isPowerOfTwo n then throw (.invalidTraceLength n)
  if columns.any (·.size ≠ n) then throw (.columnShape columns.length n)
  let periodicValues := (periodic.map fun p => (p.cosetValues 1).toArray).toArray
  let columns := columns.toArray
  let bindings : Bindings := ⟨challenges, hints, periodic.length⟩
  let violations ← constraints.zipIdx.mapM fun (c, i) => do
    return (← c.failingRows n columns periodicValues bindings).map fun row => ⟨i, c.name, row⟩
  return violations.flatten

end CairoTrace
