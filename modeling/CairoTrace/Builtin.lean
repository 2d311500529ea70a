/-!
# Builtins

The builtins of a Cairo machine, each with a memory segment of its own.
-/

namespace CairoTrace

inductive Builtin
  | output | pedersen | rangeCheck | ecdsa | bitwise | ecOp | keccak | poseidon
deriving DecidableEq, Repr

namespace Builtin

/-- The builtins in the order in which their segments are assigned. -/
def all : List Builtin := [output, pedersen, rangeCheck, ecdsa, bitwise, ecOp, keccak, poseidon]

def name : Builtin → String
  | output => "output"
  | pedersen => "pedersen"
  | rangeCheck => "range_check"
  | ecdsa => "ecdsa"
  | bitwise => "bitwise"
  | ecOp => "ec_op"
  | keccak => "keccak"
  | poseidon => "poseidon"

def ofName? (name : String) : Option Builtin := all.find? (·.name == name)

theorem mem_all (b : Builtin) : b ∈ all := by cases b <;> decide

end Builtin

end CairoTrace
