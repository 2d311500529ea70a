import CairoTrace.Component
import CairoTrace.Layout.Slots
import CairoTrace.Text.Quoted

/-!
# Layouts

A layout puts components in the columns of a trace of a fixed length. The columns that every
layout has come first, then those of the builtins in use, and last the columns that depend on
challenges. The builtins take slots of memory and of range checked values as they are added, and
each slot is the first that is free.
-/

namespace CairoTrace

structure Layout where
  config : LayoutConfig
  traceLength : Nat
  columnNames : List String
  /-- The number of columns that do not depend on challenges. -/
  mainColumns : Nat
  challengeCount : Nat
  components : List Component
  constraints : List Constraint
  periodic : List PeriodicColumn
  /-- The cells that constraints read, in ascending order. -/
  mask : List Cell

namespace Layout

/-! ## Columns -/

def plainNames : List String :=
  ["rc16/pool", "cpu/decode/opcode_rc", "rc16/sorted", "memory/pool", "memory/sorted",
    "cpu/registers"]

def pedersenNames : List String :=
  ["pedersen/partial_sum_x", "pedersen/partial_sum_y", "pedersen/suffix", "pedersen/slope",
    "pedersen/bit_unpacking"]

def dilutedNames : List String := ["diluted_check/pool", "diluted_check/sorted"]

def ecdsaNames : List String :=
  ["ecdsa/key/partial_sum_x", "ecdsa/key/partial_sum_y", "ecdsa/key/suffix", "ecdsa/key/slope",
    "ecdsa/key/x_diff_inv", "ecdsa/key/doubling_x", "ecdsa/key/doubling_y",
    "ecdsa/key/doubling_slope", "ecdsa/generator/partial_sum_x", "ecdsa/generator/partial_sum_y",
    "ecdsa/generator/suffix", "ecdsa/generator/slope", "ecdsa/generator/x_diff_inv",
    "ecdsa/instance_cells"]

def ecOpNames : List String :=
  ["ec_op/partial_sum_x", "ec_op/partial_sum_y", "ec_op/slope", "ec_op/x_diff_inv",
    "ec_op/suffix", "ec_op/doubled_x", "ec_op/doubled_y", "ec_op/doubling_slope",
    "ec_op/bit_unpacking"]

def permutationNames : List String := ["rc16/perm/cum_prod", "memory/perm/cum_prod"]

def dilutedPermutationNames : List String :=
  ["diluted_check/permutation/cum_prod", "diluted_check/aggregate"]

def namesIf (wanted : Bool) (names : List String) : List String := if wanted then names else []

structure ColumnStarts where
  pedersen : Nat
  diluted : Nat
  ecdsa : Nat
  ecOp : Nat
  interaction : Nat
deriving DecidableEq

/-- The first columns of the groups of a configuration, each group following the one before it. -/
def ColumnStarts.ofConfig (c : LayoutConfig) : ColumnStarts :=
  let after (start : Nat) (wanted : Bool) (names : List String) : Nat :=
    start + (namesIf wanted names).length
  let pedersen := plainNames.length
  let diluted := after pedersen c.pedersen.isSome pedersenNames
  let ecdsa := after diluted c.dilution.isSome dilutedNames
  let ecOp := after ecdsa c.ecdsa.isSome ecdsaNames
  { pedersen, diluted, ecdsa, ecOp, interaction := after ecOp c.ecOp.isSome ecOpNames }

def namesOf (c : LayoutConfig) : List String :=
  plainNames ++ namesIf c.pedersen.isSome pedersenNames ++
    namesIf c.dilution.isSome dilutedNames ++ namesIf c.ecdsa.isSome ecdsaNames ++
    namesIf c.ecOp.isSome ecOpNames ++ permutationNames ++
    namesIf c.dilution.isSome dilutedPermutationNames

/-! ## Components -/

/-- A layout while builtins are added to it. -/
structure Assembly where
  n : Nat
  starts : ColumnStarts
  memory : Slots
  rangeCheck : Slots
  components : List Component
  periodicCount : Nat := 0

namespace Assembly

/-- The slots of memory that the processor and the public memory take. -/
def memorySlots : Slots :=
  { column := Column.memoryPool, granularity := memoryStep
    taken := Cpu.memoryRows.map (cycleHeight, ·) ++ [(publicMemoryStep, publicMemoryOffset)] }

/-- The slots of range checked values that the processor takes. -/
def rangeCheckSlots : Slots :=
  { column := Column.rangeCheckPool, granularity := 1
    taken := Cpu.rangeCheckRows.map (cycleHeight, ·) }

/-- The components without instances. -/
def initial (c : LayoutConfig) (n : Nat) : Assembly :=
  let starts := ColumnStarts.ofConfig c
  let diluted := c.dilution.map fun dilution =>
    Component.dilutedCheck {
      dilution
      pool := starts.diluted
      sorted := starts.diluted + 1
      products := starts.interaction + 2
      aggregate := starts.interaction + 3 }
  { n, starts, memory := memorySlots, rangeCheck := rangeCheckSlots
    components :=
      [.cpu, .memory (starts.interaction + 1), .rangeCheck16 starts.interaction] ++
        diluted.toList ++ if c.output then [.output] else [] }

/-- The rows of an instance of a builtin, which have to fit in the trace. -/
def instanceHeight (a : Assembly) (ratio : Nat) : Except LayoutError Nat :=
  if cycleHeight * ratio ≤ a.n then .ok (cycleHeight * ratio)
  else .error (.invalidTraceLength a.n)

def allocateMemory (a : Assembly) (step : Nat) (b : Builtin) :
    Except LayoutError (VirtualColumn × Assembly) := do
  let (slot, memory) ← a.memory.allocate step b.name
  return (slot, { a with memory })

def allocateRangeCheck (a : Assembly) (step : Nat) (b : Builtin) :
    Except LayoutError (VirtualColumn × Assembly) := do
  let (slot, rangeCheck) ← a.rangeCheck.allocate step b.name
  return (slot, { a with rangeCheck })

def add (a : Assembly) (c : Component) : Assembly := { a with components := a.components ++ [c] }

/-- Makes room for the two coordinates of the points of a builtin. -/
def addPeriodic (a : Assembly) : Assembly := { a with periodicCount := a.periodicCount + 2 }

def addPedersen (params : Option Pedersen.Params) (ratio : Nat) (a : Assembly) :
    Except LayoutError Assembly := do
  let some params := params | throw .missingPedersenParams
  let height ← a.instanceHeight ratio
  let step := height / (2 * SubsetSum.steps)
  let first := a.starts.pedersen
  let (input0, a) ← a.allocateMemory height .pedersen
  let (input1, a) ← a.allocateMemory height .pedersen
  let (output, a) ← a.allocateMemory height .pedersen
  let cells : PedersenCells := {
    params
    sum := .ofColumns first (first + 1) (first + 2) (first + 3) step Pedersen.inputBits
    unpacking := ⟨first + 4, step, 0⟩
    input0, input1, output
    periodic := a.periodicCount }
  return (a.add (.pedersen cells)).addPeriodic

def addRangeCheck (config : RangeCheckConfig) (a : Assembly) : Except LayoutError Assembly := do
  let height ← a.instanceHeight config.ratio
  let (memory, a) ← a.allocateMemory height .rangeCheck
  let (parts, a) ← a.allocateRangeCheck (height / config.parts) .rangeCheck
  return a.add (.rangeCheck { partCount := config.parts, memory, parts })

def addEcdsa (ratio : Nat) (a : Assembly) : Except LayoutError Assembly := do
  let height ← a.instanceHeight ratio
  let keyStep := height / (2 * SubsetSum.steps)
  let generatorStep := height / SubsetSum.steps
  let first := a.starts.ecdsa
  let (pubkey, a) ← a.allocateMemory height .ecdsa
  let (message, a) ← a.allocateMemory height .ecdsa
  let keyCell (k : Nat) : VirtualColumn := ⟨first + k, keyStep, 0⟩
  let cells : EcdsaCells := {
    key := .ofColumns first (first + 1) (first + 2) (first + 3) keyStep Ecdsa.scalarBits
    keyXDiffInv := keyCell 4
    doubling := { x := keyCell 5, y := keyCell 6, slope := keyCell 7 }
    generator :=
      .ofColumns (first + 8) (first + 9) (first + 10) (first + 11) generatorStep Ecdsa.scalarBits
    generatorXDiffInv := ⟨first + 12, generatorStep, 0⟩
    cells := first + 13
    pubkey, message
    periodic := a.periodicCount }
  return (a.add (.ecdsa cells)).addPeriodic

def addBitwise (dilution : Dilution) (ratio : Nat) (a : Assembly) :
    Except LayoutError Assembly := do
  let height ← a.instanceHeight ratio
  let strandCells := BitwiseCells.valueCount * dilution.strands
  let step := height / strandCells
  if height % strandCells ≠ 0 ∨ ¬ isPowerOfTwo step ∨ step < 2 then
    throw (.invalidRatio .bitwise ratio)
  let (values, a) ← a.allocateMemory (height / BitwiseCells.valueCount) .bitwise
  let (disjunction, a) ← a.allocateMemory height .bitwise
  return a.add (.bitwise { dilution, pool := a.starts.diluted, values, disjunction })

def addEcOp (ratio : Nat) (a : Assembly) : Except LayoutError Assembly := do
  let height ← a.instanceHeight ratio
  let step := height / SubsetSum.steps
  let first := a.starts.ecOp
  let (memory, a) ← a.allocateMemory (height / EcOpCells.memoryPlaces) .ecOp
  let cell (k : Nat) : VirtualColumn := ⟨first + k, step, 0⟩
  let cells : EcOpCells := {
    sum := .ofColumns first (first + 1) (first + 4) (first + 2) step EcOp.scalarBits
    xDiffInv := cell 3
    doubling := { x := cell 5, y := cell 6, slope := cell 7 }
    unpacking := cell 8
    memory }
  return a.add (.ecOp cells)

def addBuiltins (c : LayoutConfig) (params : Option Pedersen.Params) (a : Assembly) :
    Except LayoutError Assembly := do
  let whenSome {α : Type} (x : Option α) (step : α → Assembly → Except LayoutError Assembly)
      (a : Assembly) : Except LayoutError Assembly :=
    match x with
    | some v => step v a
    | none => .ok a
  let a ← whenSome c.pedersen (addPedersen params) a
  let a ← whenSome c.rangeCheck addRangeCheck a
  let a ← whenSome c.ecdsa addEcdsa a
  let a ← whenSome (do return (← c.dilution, (← c.bitwise).ratio))
    (fun (dilution, ratio) => addBitwise dilution ratio) a
  whenSome c.ecOp addEcOp a

end Assembly

/-! ## Layouts -/

/-- The layout of a configuration for traces of length `n` over the field of the given modulus,
which has to be the Stark field. -/
def build (c : LayoutConfig) (n : Nat) (params : Option Pedersen.Params)
    (modulus : Nat := starkPrime) : Except LayoutError Layout := do
  if modulus ≠ starkPrime then throw .unsupportedField
  c.validate
  if ¬ isPowerOfTwo n ∨ n < cycleHeight then throw (.invalidTraceLength n)
  let assembly ← (Assembly.initial c n).addBuiltins c params
  let periodic ←
    (assembly.components.mapM (Component.periodicColumns n)).mapError LayoutError.constraint
  let constraints := assembly.components.flatMap (·.constraints)
  return {
    config := c
    traceLength := n
    columnNames := namesOf c
    mainColumns := assembly.starts.interaction
    challengeCount := if c.dilution.isSome then dilutedChallenges else plainChallenges
    components := assembly.components
    constraints
    periodic := periodic.flatten
    mask := deriveMask constraints }

def interactionColumns (l : Layout) : Nat := l.columnNames.length - l.mainColumns

/-- The bound on the degree of the composition polynomial. -/
def degreeBound (l : Layout) : Nat := l.config.constraintDegree * l.traceLength

def steps (l : Layout) : Nat := l.traceLength / cycleHeight

/-! ## Description -/

def bracket (parts : List String) : String := "[" ++ ", ".intercalate parts ++ "]"

def describe (l : Layout) : String :=
  s!"Layout \x7b name: {Text.quote l.config.name}, trace_len: {l.traceLength}, columns: " ++
    bracket (l.columnNames.map Text.quote) ++ s!", num_constraints: {l.constraints.length} \x7d"

end Layout

end CairoTrace
