import CairoTrace.Layout.Binding
import CairoTrace.Trace.Filling

/-!
# Execution traces

The main columns of the trace of a run, and the columns that depend on challenges, which are
computed from them.
-/

namespace CairoTrace

def mainTrace (l : Layout) (e : Execution) (i : PublicInput) :
    Except LayoutError (List (Array Felt)) := do
  if e.registers.length ≠ l.steps then throw (.stepCount l.steps e.registers.length)
  let cells ← l.components.foldlM
    (fun f c => Filling.writeAll e.memory f (c.script l.traceLength i e)) (Filling.initial l)
  let complete ← (l.components.filter (·.isPool)).foldlM (fun f c => c.finishPool i e f) cells
  return complete.columns.toList

namespace Component

/-- The columns of a component that depend on challenges, with their indices. -/
def interaction (main : Array (Array Felt)) (challenges : List Felt) :
    Component → List (Nat × List Felt)
  | memory products =>
    [(products, MemoryCheck.interaction challenges (column Column.memoryPool)
      (column Column.memorySorted))]
  | rangeCheck16 products =>
    [(products, RangeCheck16.interaction challenges (column Column.rangeCheckPool)
      (column Column.rangeCheckSorted))]
  | dilutedCheck c =>
    [(c.products, DilutedCheck.permutation challenges (column c.pool) (column c.sorted)),
      (c.aggregate, DilutedCheck.aggregation challenges (column c.sorted))]
  | _ => []
where
  column (k : Nat) : List Felt := (main[k]?.getD #[]).toList

end Component

/-- The columns that depend on challenges, from the main columns. -/
def interactionTrace (l : Layout) (main : List (Array Felt)) (challenges : List Felt) :
    Except LayoutError (List (Array Felt)) := do
  if challenges.length ≠ l.challengeCount then
    throw (.challengeCount l.challengeCount challenges.length)
  let columns := l.components.flatMap (·.interaction main.toArray challenges)
  return (List.range l.interactionColumns).map fun k =>
    ((List.lookup (l.mainColumns + k) columns).getD (List.replicate l.traceLength 0)).toArray

def fullTrace (l : Layout) (main : List (Array Felt)) (challenges : List Felt) :
    Except LayoutError (List (Array Felt)) :=
  return main ++ (← interactionTrace l main challenges)

end CairoTrace
