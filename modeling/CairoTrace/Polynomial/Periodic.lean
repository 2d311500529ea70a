import CairoTrace.Polynomial.Transform
import CairoTrace.Constraint.Error

/-!
# Periodic columns

A periodic column repeats its values along the trace: value `i` is on row `i·step`, and the first
value again on row `count·step`. With `c` copies in the trace it is the polynomial `P(x^c)`, where
`P` interpolates the values over the group whose order is their count. Rows that are no multiples
of the step have whatever value the polynomial has there.
-/

namespace CairoTrace

structure PeriodicColumn where
  /-- The coefficients of `P`. -/
  coefficients : List Felt
  count : Nat
  step : Nat
  /-- How often the values repeat in the trace. -/
  copies : Nat
deriving Inhabited

namespace PeriodicColumn

/-- The column of some values in a trace of length `n`. All three numbers have to be powers of
two, and the trace has to hold the values once. -/
def ofValues (values : List Felt) (n step : Nat) : Except ConstraintError PeriodicColumn :=
  let count := values.length
  if ¬ isPowerOfTwo n then .error (.invalidTraceLength n)
  else if isPowerOfTwo count ∧ isPowerOfTwo step ∧ count * step ≤ n then
    .ok ⟨Polynomial.interpolate values, count, step, n / (count * step)⟩
  else .error (.invalidPeriodicColumn count step n)

/-- The rows after which the column repeats. -/
def period (c : PeriodicColumn) : Nat := c.count * c.step

def degree (c : PeriodicColumn) : Nat := Polynomial.degree c.coefficients * c.copies

def eval (c : PeriodicColumn) (x : Felt) : Felt := Polynomial.eval c.coefficients (x ^ c.copies)

/-- The values at `offset·gⁱ` for the rows `i` of a period, where `g` generates the trace domain.
As `x ↦ x^copies` maps the trace domain onto the group of the period, they are the values of a
polynomial with scaled coefficients on that group. -/
def cosetValues (c : PeriodicColumn) (offset : Felt) : List Felt :=
  let scaled := List.zipWith (· * ·) c.coefficients
    (Polynomial.powersFrom (offset ^ c.copies) 1 c.coefficients.length)
  Polynomial.values c.period.log2 (Felt.rootOfUnity c.period)
    (scaled ++ List.replicate (c.period - c.coefficients.length) 0)

end PeriodicColumn

end CairoTrace
