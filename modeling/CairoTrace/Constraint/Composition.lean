import CairoTrace.Constraint.Basic
import CairoTrace.Constraint.Fraction
import CairoTrace.Polynomial.Periodic
import Std.Data.HashMap

/-!
# The composition polynomial

A random linear combination of constraints, each divided by the vanishing factor of its domain and
multiplied by those of its exclusions. It is a polynomial of bounded degree when all constraints
hold on a trace. Constraints are grouped by denominator, and within a denominator by numerator, so
that a point costs one product per numerator and one sum of fractions per denominator.
-/

namespace CairoTrace

/-- The constraints of one numerator, by their indices. -/
structure NumeratorGroup where
  /-- Indices of vanishing factors in ascending order. -/
  factors : List Nat
  members : List Nat
deriving DecidableEq, Inhabited

/-- The constraints of one denominator. -/
structure DenominatorGroup where
  factor : Nat
  numerators : List NumeratorGroup
deriving DecidableEq, Inhabited

structure Composition where
  traceLength : Nat
  generator : Felt
  degreeBound : Nat
  mask : List Cell
  periodic : List PeriodicColumn
  names : List String
  /-- The expressions of the constraints over indices into the mask. -/
  exprs : List (Expr (BoundLeaf Nat))
  /-- The vanishing factors in order of their first appearance. -/
  factors : List VanishingFactor
  groups : List DenominatorGroup

namespace Composition

/-! ## Grouping -/

/-- The index of an element, which is appended unless it is present. -/
def internFactor (factors : List VanishingFactor) (f : VanishingFactor) :
    Nat × List VanishingFactor :=
  match factors.idxOf? f with
  | some i => (i, factors)
  | none => (factors.length, factors ++ [f])

def internFactors (factors : List VanishingFactor) : List VanishingFactor →
    List Nat × List VanishingFactor
  | [] => ([], factors)
  | f :: rest =>
    let (i, factors) := internFactor factors f
    let (is, factors) := internFactors factors rest
    (i :: is, factors)

/-- Adds constraint `i` to the group of its numerator. -/
def joinNumerator (factors : List Nat) (i : Nat) : List NumeratorGroup → List NumeratorGroup
  | [] => [⟨factors, [i]⟩]
  | g :: rest =>
    if g.factors = factors then { g with members := g.members ++ [i] } :: rest
    else g :: joinNumerator factors i rest

/-- Adds constraint `i` to the group of its denominator. -/
def joinDenominator (factor : Nat) (factors : List Nat) (i : Nat) :
    List DenominatorGroup → List DenominatorGroup
  | [] => [⟨factor, [⟨factors, [i]⟩]⟩]
  | g :: rest =>
    if g.factor = factor then { g with numerators := joinNumerator factors i g.numerators } :: rest
    else g :: joinDenominator factor factors i rest

/-! ## Construction -/

/-- The factors by which a constraint is divided and multiplied. -/
def constraintFactors (n : Nat) (c : Constraint) :
    Except ConstraintError (VanishingFactor × List VanishingFactor) := do
  let denominator ← c.domain.vanishingFactor n
  let numerators ← c.exclusions.mapM fun exclusion => do
    if ¬ exclusion.isSubset n c.domain then throw (.domainNotSubset c.domain exclusion)
    exclusion.vanishingFactor n
  return (denominator, numerators)

/-- The degree of a bound leaf as a polynomial in the point. -/
def leafDegree (n : Nat) (periodic : Array PeriodicColumn) : BoundLeaf Nat → Nat
  | .constant _ => 0
  | .cell _ => n - 1
  | .periodic i => (periodic[i]?.map (·.degree)).getD 0

/-- The degree of a constraint after the division by its denominator. -/
def termDegree (exprDegree : Nat) (denominator : VanishingFactor)
    (numerators : List VanishingFactor) : Nat :=
  exprDegree + (numerators.map (·.exponent)).foldr (· + ·) 0 - denominator.exponent

/-- The places of cells in a mask; of two places of one cell the later one counts. -/
def maskPlaces (mask : List Cell) : Std.HashMap Cell Nat :=
  mask.zipIdx.foldl (fun places (cell, i) => places.insert cell i) {}

structure Compiled where
  exprs : List (Expr (BoundLeaf Nat)) := []
  factors : List VanishingFactor := []
  groups : List DenominatorGroup := []

def compileNext (n degreeBound : Nat) (bindings : Bindings) (periodicDegree : BoundLeaf Nat → Nat)
    (places : Std.HashMap Cell Nat) (s : Compiled) (i : Nat) (c : Constraint) :
    Except ConstraintError Compiled := do
  let (denominator, numerators) ← constraintFactors n c
  let expr ← c.expr.tryMap (Leaf.bind bindings (places[·]?))
  let degree := termDegree (expr.degree periodicDegree) denominator numerators
  if degreeBound ≤ degree then throw (.degreeBoundExceeded c.name degree degreeBound)
  let (denominator, factors) := internFactor s.factors denominator
  let (numerators, factors) := internFactors factors numerators
  let numerators := numerators.mergeSort (· ≤ ·)
  return {
    exprs := s.exprs ++ [expr]
    factors
    groups := joinDenominator denominator numerators i s.groups }

/-- The places of a mask that expressions read. -/
def usedPlaces (size : Nat) (exprs : List (Expr (BoundLeaf Nat))) : Array Bool :=
  exprs.foldl
    (fun used e => e.leaves.foldl
      (fun used leaf => match leaf with
        | .cell i => used.setIfInBounds i true
        | _ => used)
      used)
    (Array.replicate size false)

/-- The composition of constraints on a trace of length `n` with a published mask, which has to
hold exactly the cells that the constraints read. -/
def ofMask (n : Nat) (mask : List Cell) (constraints : List Constraint)
    (periodic : List PeriodicColumn) (challenges : List Felt) (hints : List (Option Felt))
    (degreeBound : Nat) : Except ConstraintError Composition := do
  if ¬ isPowerOfTwo n then throw (.invalidTraceLength n)
  let bindings : Bindings := ⟨challenges, hints, periodic.length⟩
  let degree := leafDegree n periodic.toArray
  let places := maskPlaces mask
  let s ← constraints.zipIdx.foldlM
    (fun s (c, i) => compileNext n degreeBound bindings degree places s i c) {}
  let used := usedPlaces mask.length s.exprs
  if let some ((column, offset), _) := mask.zipIdx.find? fun (_, i) => used[i]? != some true then
    throw (.unusedMaskEntry column offset)
  return {
    traceLength := n
    generator := Felt.rootOfUnity n
    degreeBound, mask, periodic
    names := constraints.map (·.name)
    exprs := s.exprs
    factors := s.factors
    groups := s.groups }

/-- The composition of constraints on a trace of length `n`, with the cells that they read as its
mask. -/
def ofConstraints (n : Nat) (constraints : List Constraint) (periodic : List PeriodicColumn)
    (challenges : List Felt) (hints : List (Option Felt)) (degreeBound : Nat) :
    Except ConstraintError Composition :=
  ofMask n (deriveMask constraints) constraints periodic challenges hints degreeBound

/-! ## Evaluation -/

/-- The factors of degree one. They are computed at each point from their shifts. -/
def linearFactors (c : Composition) : List VanishingFactor :=
  c.factors.filter (·.exponent == 1)

/-- The factors of higher degree. Their values may be looked up in tables. -/
def tabledFactors (c : Composition) : List VanishingFactor :=
  c.factors.filter (·.exponent != 1)

/-- The values `g^k` of the factors `x - g^k`. -/
def pointShifts (c : Composition) : List Felt := c.linearFactors.map (·.shiftValue c.generator)

def domainExponents (c : Composition) : List Nat := c.tabledFactors.map (·.exponent)

def domainShifts (c : Composition) : List Felt := c.tabledFactors.map (·.shiftValue c.generator)

/-- The values of factors at a point, from the shifts of the linear ones and the values of the
others. -/
def factorValues (point : Felt) : List VanishingFactor → (shifts tabled : List Felt) → List Felt
  | [], _, _ => []
  | f :: rest, shifts, tabled =>
    if f.exponent = 1 then (point - shifts.headD 0) :: factorValues point rest shifts.tail tabled
    else tabled.headD 0 :: factorValues point rest shifts tabled.tail

/-- Refuses a list of a wrong length. -/
def checkCount (error : Nat → Nat → ConstraintError) (expected actual : Nat) :
    Except ConstraintError Unit :=
  if actual = expected then .ok () else .error (error expected actual)

/-- The sum of a group, which is divided by its denominator. -/
def groupSum (factors weighted : Array Felt) (g : DenominatorGroup) : Felt :=
  g.numerators.foldl
    (fun sum numerator =>
      let inner := numerator.members.foldl (fun s i => s + weighted[i]?.getD 0) 0
      sum + inner * numerator.factors.foldl (fun p f => p * factors[f]?.getD 0) 1)
    0

/-- The sum of the groups, unless a denominator is zero. -/
def sumGroups (factors weighted : Array Felt) (groups : List DenominatorGroup) :
    Except ConstraintError Fraction :=
  groups.foldlM
    (fun sum g =>
      let denominator := factors[g.factor]?.getD 0
      if denominator.isZero then .error .pointOnDomain
      else .ok (sum + ⟨groupSum factors weighted g, denominator⟩))
    0

/-- The value of the composition at a point, from the values there of the cells of the mask, of
the periodic columns and of the factors of higher degree, and from the shifts of the linear
factors. -/
def evalFrom (c : Composition) (neighbors periodicValues coefficients : List Felt) (point : Felt)
    (shifts tabled : List Felt) : Except ConstraintError Fraction := do
  checkCount .neighborCount c.mask.length neighbors.length
  checkCount .periodicValueCount c.periodic.length periodicValues.length
  checkCount .coefficientCount c.exprs.length coefficients.length
  checkCount .shiftCount c.linearFactors.length shifts.length
  checkCount .precomputedCount c.tabledFactors.length tabled.length
  let factors := (factorValues point c.factors shifts tabled).toArray
  let neighbors := neighbors.toArray
  let periodicValues := periodicValues.toArray
  let value (e : Expr (BoundLeaf Nat)) : Felt :=
    e.eval (BoundLeaf.value (neighbors[·]?.getD 0) (periodicValues[·]?.getD 0))
  let weighted := List.zipWith (fun k e => k * value e) coefficients c.exprs
  sumGroups factors weighted.toArray c.groups

/-- The value of the composition at a point, from the values of the cells of the mask there. -/
def evalAt (c : Composition) (point : Felt) (neighbors coefficients : List Felt) :
    Except ConstraintError Fraction :=
  c.evalFrom neighbors (c.periodic.map (·.eval point)) coefficients point c.pointShifts
    (c.tabledFactors.map (·.eval point c.generator))

/-- The values of `x^e - shift` at the points `point·generatorⁱ`, for as many `i` as there are
different values when the order of the generator is `n`. -/
def factorTable (point generator : Felt) (n exponent : Nat) (shift : Felt) : List Felt :=
  (Polynomial.powersFrom (generator ^ exponent) (point ^ exponent) (n / exponent)).map (· - shift)

/-- A table of values for each of some factors. -/
def factorTables (point generator : Felt) (n : Nat) (exponents : List Nat) (shifts : List Felt) :
    Except ConstraintError (List (List Felt)) := do
  checkCount .shiftCount exponents.length shifts.length
  (exponents.zip shifts).mapM fun (exponent, shift) =>
    if exponent = 0 ∨ n % exponent ≠ 0 then throw (.invalidTraceLength n)
    else return factorTable point generator n exponent shift

/-- The row `offset` rows after row `i` of a trace of length `n`, wrapping around its end. -/
def wrapRow (n i : Nat) (offset : Int) : Nat := ((i + offset) % n).toNat

/-- A value of a table that repeats. -/
def lookupCyclic (table : Array Felt) (i : Nat) : Felt := table[i % table.size]?.getD 0

/-- The values of the composition at the points `offset·gⁱ` for the rows `i` of a trace, from the
values of the columns there. -/
def evalOnCoset (c : Composition) (offset : Felt) (columns : List (Array Felt))
    (coefficients : List Felt) : Except ConstraintError (List Felt) := do
  let n := c.traceLength
  let width := c.mask.foldl (fun w (column, _) => max w (column + 1)) 0
  if columns.length < width ∨ columns.any (·.size ≠ n) then throw (.columnShape width n)
  checkCount .coefficientCount c.exprs.length coefficients.length
  let columns := columns.toArray
  let periodicTables := c.periodic.map fun p => (p.cosetValues offset).toArray
  let tables ← factorTables offset c.generator n c.domainExponents c.domainShifts
  let tables := tables.map (·.toArray)
  let shifts := c.pointShifts
  (Polynomial.powersFrom c.generator offset n).zipIdx.mapM fun (point, i) => do
    let neighbors := c.mask.map fun (column, k) =>
      ((columns[column]?.getD #[])[wrapRow n i k]?).getD 0
    let fraction ← c.evalFrom neighbors (periodicTables.map (lookupCyclic · i)) coefficients point
      shifts (tables.map (lookupCyclic · i))
    return fraction.numerator / fraction.denominator

end Composition

end CairoTrace
