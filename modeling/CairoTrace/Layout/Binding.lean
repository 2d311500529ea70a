import CairoTrace.Constraint.Check
import CairoTrace.Layout.Basic

/-!
# Binding a layout to a run

The constraints of a layout speak of a run through hints, which are computed from the public input
and the challenges of the verifier. With these a layout has a composition polynomial, and a trace
can be checked against its constraints.
-/

namespace CairoTrace

namespace Layout

/-- Whether a builtin is used by a run exactly if the layout has it. -/
def checkSegment (l : Layout) (i : PublicInput) (b : Builtin) : Except LayoutError Unit :=
  match (i.segments.builtin b).isSome, l.config.has b with
  | true, false => .error (.unexpectedSegment b)
  | false, true => .error (.missingSegment b)
  | _, _ => .ok ()

/-- Refuses the public inputs of runs that the layout has no room for. -/
def validate (l : Layout) (i : PublicInput) : Except LayoutError Unit := do
  if i.layout ≠ l.config.name then throw (.layoutMismatch l.config.name i.layout)
  if i.steps ≠ l.steps then throw (.stepCount l.steps i.steps)
  Builtin.all.forM (l.checkSegment i)
  let capacity := l.traceLength / publicMemoryStep
  if capacity < i.memory.length then throw (.publicMemoryOverflow i.memory.length capacity)

/-- The builtins whose first address is a hint. -/
def startHints : List (Builtin × Hint) :=
  [(.pedersen, .pedersenStart), (.rangeCheck, .rangeCheckStart), (.ecdsa, .ecdsaStart),
    (.bitwise, .bitwiseStart), (.ecOp, .ecOpStart)]

/-- The hint of the first address of each builtin of the layout. -/
def startValues (l : Layout) (i : PublicInput) : Except LayoutError (List (Hint × Felt)) :=
  (startHints.filter fun (b, _) => l.config.has b).mapM fun (b, hint) =>
    match i.segments.builtin b with
    | some segment => .ok (hint, .ofNat segment.start)
    | none => .error (.missingSegment b)

/-- The hints that a run has a value for. -/
def hintValues (l : Layout) (i : PublicInput) (challenges : List Felt) :
    Except LayoutError (List (Hint × Felt)) := do
  if challenges.length ≠ l.challengeCount then
    throw (.challengeCount l.challengeCount challenges.length)
  let padding ← i.padding.mapError .input
  let quotient ← Permutation.memoryQuotient (Challenge.memoryZ.value challenges)
    (Challenge.memoryAlpha.value challenges) l.traceLength publicMemoryStep i.memory padding
  let aggregate := l.config.dilution.map fun d =>
    (Hint.dilutedAggregate, Permutation.dilutedAggregate (Challenge.aggregateZ.value challenges)
      (Challenge.aggregateAlpha.value challenges) d.spacing d.bits)
  let starts ← l.startValues i
  return [
    (.initialAp, .ofNat i.initialAp), (.initialPc, .ofNat i.initialPc),
    (.finalAp, .ofNat i.finalAp), (.finalPc, .ofNat i.finalPc),
    (.memoryQuotient, quotient),
    (.rangeCheckMin, .ofNat i.rangeCheckMin),
    (.rangeCheckMax, .ofNat i.rangeCheckMax)] ++ aggregate.toList ++ starts

def hints (l : Layout) (i : PublicInput) (challenges : List Felt) :
    Except LayoutError (List (Option Felt)) := do
  let values ← l.hintValues i challenges
  return Hint.all.map (List.lookup · values)

def composition (l : Layout) (i : PublicInput) (challenges : List Felt) :
    Except LayoutError Composition := do
  l.validate i
  let hints ← l.hints i challenges
  (Composition.ofMask l.traceLength l.mask l.constraints l.periodic challenges hints
    l.degreeBound).mapError .constraint

/-- The violations of the constraints by a trace, whose columns that depend on challenges follow
the others. -/
def checkTrace (l : Layout) (columns : List (Array Felt)) (i : PublicInput)
    (challenges : List Felt) : Except LayoutError (List Violation) := do
  let hints ← l.hints i challenges
  (checkConstraints l.traceLength columns l.constraints l.periodic challenges hints).mapError
    .constraint

end Layout

end CairoTrace
