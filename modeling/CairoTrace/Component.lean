import CairoTrace.Component.BitwiseCells
import CairoTrace.Component.Cpu
import CairoTrace.Component.DilutedCheck
import CairoTrace.Component.EcOpCells
import CairoTrace.Component.EcdsaCells
import CairoTrace.Component.MemoryCheck
import CairoTrace.Component.PedersenCells
import CairoTrace.Component.RangeCheck16
import CairoTrace.Component.RangeCheckCells

/-!
# Components

The parts of a layout. Some write cells as soon as the execution is known; the others are made of
pools, which are complete only after all cells.
-/

namespace CairoTrace

inductive Component
  | cpu
  /-- Memory, with the column of the products of its permutation. -/
  | memory (products : Nat)
  /-- Range checks, with the column of the products of their permutation. -/
  | rangeCheck16 (products : Nat)
  | dilutedCheck (check : DilutedCheck)
  | output
  | pedersen (cells : PedersenCells)
  | rangeCheck (cells : RangeCheckCells)
  | ecdsa (cells : EcdsaCells)
  | bitwise (cells : BitwiseCells)
  | ecOp (cells : EcOpCells)

namespace Component

def name : Component → String
  | cpu => "cpu"
  | memory _ => "memory"
  | rangeCheck16 _ => "rc16"
  | dilutedCheck _ => "diluted_check"
  | output => "output"
  | pedersen _ => "pedersen"
  | rangeCheck _ => "range_check"
  | ecdsa _ => "ecdsa"
  | bitwise _ => "bitwise"
  | ecOp _ => "ec_op"

def builtin : Component → Option Builtin
  | cpu | memory _ | rangeCheck16 _ | dilutedCheck _ => none
  | output => some .output
  | pedersen _ => some .pedersen
  | rangeCheck _ => some .rangeCheck
  | ecdsa _ => some .ecdsa
  | bitwise _ => some .bitwise
  | ecOp _ => some .ecOp

def isPool : Component → Bool
  | memory _ | rangeCheck16 _ | dilutedCheck _ => true
  | _ => false

def constraints : Component → List Constraint
  | cpu => Cpu.constraints
  | memory products => MemoryCheck.constraints products
  | rangeCheck16 products => RangeCheck16.constraints products
  | dilutedCheck check => check.constraints
  | output => []
  | pedersen cells => cells.constraints
  | rangeCheck cells => cells.constraints
  | ecdsa cells => cells.constraints
  | bitwise cells => cells.constraints
  | ecOp cells => cells.constraints

/-- The periodic columns that the constraints read, in a trace of length `n`. -/
def periodicColumns (n : Nat) : Component → Except ConstraintError (List PeriodicColumn)
  | pedersen cells => cells.periodicColumns n
  | ecdsa cells => cells.periodicColumns n
  | _ => .ok []

end Component

end CairoTrace
