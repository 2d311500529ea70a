import CairoTrace.Layout.Basic

/-!
# Filling a trace

The main columns of a trace are filled in two stages. First the components write cells, and push
values into the pools; an access to memory has to agree with the memory of the run and with all
accesses before it. Then the pools become columns, with their sorted copies beside them.
-/

namespace CairoTrace

/-- A run: its private input and what the files of it hold. -/
structure Execution where
  inputs : PrivateInput
  registers : List Registers
  memory : Memory

/-- A trace that is being filled. -/
structure Filling where
  columns : Array (Array Felt)
  memory : MemoryPool
  rangeCheck : RangeCheckPool
  diluted : DilutedPool

namespace Filling

def initial (l : Layout) : Filling :=
  let n := l.traceLength
  let bits := (l.config.dilution.map (·.bits)).getD 0
  { columns := Array.replicate l.mainColumns (Array.replicate n 0)
    memory := .ofSize (n / memoryStep) (publicMemoryStep / memoryStep)
      (publicMemoryOffset / memoryStep)
    rangeCheck := .ofSize n
    diluted := .ofSize (if bits = 0 then 0 else n) bits }

def setCell (f : Filling) (column row : Nat) (value : Felt) : Filling :=
  { f with columns := f.columns.modify column (·.setIfInBounds row value) }

/-- Whether the memory of a run has another value at an address. -/
def contradicts (memory : Memory) (address : Nat) (value : Felt) : Bool :=
  match memory.get? address with
  | some word => (Residue.ofNat word : Felt) != value
  | none => false

def write (memory : Memory) (f : Filling) : Write → Except LayoutError Filling
  | .cell column row value => .ok (f.setCell column row value)
  | .memory row address value =>
    if contradicts memory address value then .error (.memoryMismatch address)
    else
      match f.memory.push (row / memoryStep) ⟨address, value⟩ with
      | (pool, .ok ()) => .ok { f with memory := pool }
      | (_, .error e) => .error e
  | .rangeCheck row value => .ok { f with rangeCheck := f.rangeCheck.push row value }
  | .diluted row value => .ok { f with diluted := f.diluted.push row value }
  | .refuse e => .error e

def writeAll (memory : Memory) (f : Filling) (script : List Write) : Except LayoutError Filling :=
  script.foldlM (write memory) f

end Filling

namespace Component

/-- The script of a builtin: the instances of the private input are put in order, and written to
the memory segment of the builtin. -/
def builtinScript {α : Type} (b : Builtin) (i : PublicInput) (count : Nat) (index : α → Nat)
    (instances : List α) (writes : Nat → List (Option α) → List Write) : List Write :=
  match i.segments.builtin b with
  | none => [.refuse (.missingSegment b)]
  | some segment =>
    match instancesByIndex b index count instances with
    | .error e => [.refuse e]
    | .ok placed => writes segment.start placed

/-- The script of a component in a trace of length `n`; those made of pools have none. -/
def script (n : Nat) (i : PublicInput) (e : Execution) : Component → List Write
  | cpu => Cpu.writes e.memory e.registers
  | pedersen c =>
    builtinScript .pedersen i (n / c.height) (·.index) e.inputs.pedersen c.writes
  | rangeCheck c =>
    builtinScript .rangeCheck i (n / c.height) (·.index) e.inputs.rangeCheck c.writes
  | ecdsa c => builtinScript .ecdsa i (n / c.height) (·.index) e.inputs.ecdsa c.writes
  | bitwise c => builtinScript .bitwise i (n / c.height) (·.index) e.inputs.bitwise c.writes
  | ecOp c => builtinScript .ecOp i (n / c.height) (·.index) e.inputs.ecOp c.writes
  | memory _ | rangeCheck16 _ | dilutedCheck _ | output => []

/-- Turns the pool of a component into its columns. Gaps of memory take the words of the run. -/
def finishPool (i : PublicInput) (e : Execution) (f : Filling) :
    Component → Except LayoutError Filling
  | memory _ => do
    let padding ← i.padding.mapError .input
    let gapValue (address : Nat) : Felt := ((e.memory.get? address).map .ofNat).getD 0
    let (pool, sorted) ← (f.memory.finish i.memory padding gapValue).2
    Filling.writeAll e.memory f (MemoryCheck.writes pool sorted)
  | rangeCheck16 _ => do
    let (pool, sorted) ← (f.rangeCheck.finish i.rangeCheckMin i.rangeCheckMax).2
    Filling.writeAll e.memory f (RangeCheck16.writes pool sorted)
  | dilutedCheck c => do
    let (pool, sorted) ← f.diluted.finish.2
    Filling.writeAll e.memory f (c.writes pool sorted)
  | _ => .ok f

end Component

end CairoTrace
