import CairoTrace.Trace.Basic

/-!
# The constraint system of a run

A layout whose trace is as long as a run, together with the public input of the run. It is what a
prover and a verifier agree on: the verifier sees the public input alone, and the prover shows
that it knows an execution whose trace violates no constraint.
-/

namespace CairoTrace

/-- A layout and a public input that is valid for it. -/
structure Air where
  layout : Layout
  input : PublicInput

namespace Air

def maxTraceLength : Nat := (1 <<< 64) - 1

/-- The constraint system of runs with a given public input, in the layout of a configuration. -/
def build (c : LayoutConfig) (params : Option Pedersen.Params) (input : PublicInput) :
    Except LayoutError Air := do
  let n := cycleHeight * input.steps
  if maxTraceLength < n then throw (.invalidTraceLength maxTraceLength)
  let layout ← Layout.build c n params
  layout.validate input
  return { layout, input }

def composition (air : Air) (challenges : List Felt) : Except LayoutError Composition :=
  air.layout.composition air.input challenges

def mainTrace (air : Air) (e : Execution) : Except LayoutError (List (Array Felt)) :=
  CairoTrace.mainTrace air.layout e air.input

def checkTrace (air : Air) (columns : List (Array Felt)) (challenges : List Felt) :
    Except LayoutError (List Violation) :=
  air.layout.checkTrace columns air.input challenges

def check (air : Air) (e : Execution) (challenges : List Felt) :
    Except LayoutError (List Violation) := do
  let main ← air.mainTrace e
  let columns ← fullTrace air.layout main challenges
  air.checkTrace columns challenges

end Air

end CairoTrace
