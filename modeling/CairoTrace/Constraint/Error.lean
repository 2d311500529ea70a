import CairoTrace.Constraint.Rows

/-!
# Faults of constraint systems

Why constraints cannot be composed, or why a composition or a trace cannot be evaluated.
-/

namespace CairoTrace

inductive ConstraintError
  | invalidTraceLength (n : Nat)
  | invalidDomain (domain : Rows) (n : Nat)
  /-- Rows are excluded from a domain that they are not part of. -/
  | domainNotSubset (domain exclusion : Rows)
  | coefficientCount (expected actual : Nat)
  | neighborCount (expected actual : Nat)
  | periodicValueCount (expected actual : Nat)
  | shiftCount (expected actual : Nat)
  | precomputedCount (expected actual : Nat)
  | columnShape (expected n : Nat)
  | missingChallenge (i : Nat)
  | missingHint (i : Nat)
  | missingPeriodicColumn (i : Nat)
  /-- A denominator is zero at the point of evaluation. -/
  | pointOnDomain
  | zeroDenominator
  | invalidPeriodicColumn (length step n : Nat)
  /-- A cell is read that is not in the mask. -/
  | unknownMaskEntry (column : Nat) (offset : Int)
  /-- A cell of the mask is never read. -/
  | unusedMaskEntry (column : Nat) (offset : Int)
  | degreeBoundExceeded (name : String) (degree bound : Nat)
deriving DecidableEq

namespace ConstraintError

def message : ConstraintError → String
  | invalidTraceLength n => s!"trace length {n} must be a power of two"
  | invalidDomain domain n =>
    s!"row set {domain.describe} is invalid for a trace of length {n}"
  | domainNotSubset domain exclusion =>
    s!"exclusion {exclusion.describe} is not contained in {domain.describe}"
  | coefficientCount expected actual =>
    s!"expected {expected} random coefficients but received {actual}"
  | neighborCount expected actual => s!"expected {expected} neighbor values but received {actual}"
  | periodicValueCount expected actual =>
    s!"expected {expected} periodic values but received {actual}"
  | shiftCount expected actual => s!"expected {expected} point shifts but received {actual}"
  | precomputedCount expected actual =>
    s!"expected {expected} precomputed domain tables but received {actual}"
  | columnShape expected n => s!"expected {expected} trace columns of length {n}"
  | missingChallenge i => s!"challenge {i} was not supplied"
  | missingHint i => s!"hint {i} is not set"
  | missingPeriodicColumn i => s!"periodic column {i} is not defined"
  | pointOnDomain => "evaluation point is a root of a constraint denominator"
  | zeroDenominator => "fraction has a zero denominator"
  | invalidPeriodicColumn length step n =>
    s!"periodic column of {length} values with step {step} does not fit a trace of length {n}"
  | unknownMaskEntry column offset =>
    s!"trace cell (column={column}, offset={offset}) is read but missing from the mask"
  | unusedMaskEntry column offset =>
    s!"mask entry (column={column}, offset={offset}) is never read"
  | degreeBoundExceeded name degree bound =>
    s!"constraint '{name}' has degree {degree} which exceeds the bound {bound}"

end ConstraintError

/-- Refuses the row sets that do not lie in a trace of length `n`. -/
def Rows.validate (n : Nat) (rows : Rows) : Except ConstraintError Unit :=
  if ¬ isPowerOfTwo n then .error (.invalidTraceLength n)
  else if rows.fits n then .ok ()
  else .error (.invalidDomain rows n)

/-- The vanishing factor of a set of rows, which has to fit. -/
def Rows.vanishingFactor (n : Nat) (rows : Rows) : Except ConstraintError VanishingFactor := do
  rows.validate n
  return rows.factor n

end CairoTrace
