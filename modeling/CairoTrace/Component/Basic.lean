import CairoTrace.Constraint.Basic
import CairoTrace.Layout.Config

/-!
# What components share

Every layout starts with the same columns; challenges of the verifier and hints from the public
input have fixed indices. A component owns cells of a trace: it states constraints on them, and it
writes them as a script of single writes. Values that take part in a permutation are written into
pools, which become columns only when all of them are known.
-/

namespace CairoTrace

/-- The rows of an access to memory: its address and its value. -/
def memoryStep : Nat := 2

/-- The distance between the rows that are kept for the public memory. -/
def publicMemoryStep : Nat := 8

/-- The first row that is kept for the public memory. -/
def publicMemoryOffset : Nat := 2

namespace Column

def rangeCheckPool : Nat := 0
def flags : Nat := 1
def rangeCheckSorted : Nat := 2
def memoryPool : Nat := 3
def memorySorted : Nat := 4
def registers : Nat := 5

end Column

/-- A number that constraints take from the public input. -/
inductive Hint
  | initialAp | initialPc | finalAp | finalPc
  | memoryQuotient
  | rangeCheckMin | rangeCheckMax
  | dilutedAggregate
  | pedersenStart | rangeCheckStart | ecdsaStart | bitwiseStart | ecOpStart
deriving DecidableEq, Repr

namespace Hint

/-- The hints in the order of their indices. -/
def all : List Hint :=
  [initialAp, initialPc, finalAp, finalPc, memoryQuotient, rangeCheckMin, rangeCheckMax,
    dilutedAggregate, pedersenStart, rangeCheckStart, ecdsaStart, bitwiseStart, ecOpStart]

def index : Hint → Nat
  | initialAp => 0
  | initialPc => 1
  | finalAp => 2
  | finalPc => 3
  | memoryQuotient => 4
  | rangeCheckMin => 5
  | rangeCheckMax => 6
  | dilutedAggregate => 7
  | pedersenStart => 8
  | rangeCheckStart => 9
  | ecdsaStart => 10
  | bitwiseStart => 11
  | ecOpStart => 12

def term (h : Hint) : Term := .leaf (.hint h.index)

end Hint

/-- A random element that the verifier sends once the main columns are fixed. -/
inductive Challenge
  | memoryZ | memoryAlpha
  | rangeCheckZ
  | dilutedZ
  | aggregateZ | aggregateAlpha
deriving DecidableEq, Repr

namespace Challenge

def index : Challenge → Nat
  | memoryZ => 0
  | memoryAlpha => 1
  | rangeCheckZ => 2
  | dilutedZ => 3
  | aggregateZ => 4
  | aggregateAlpha => 5

def term (c : Challenge) : Term := .leaf (.challenge c.index)

/-- The value of a challenge in the list of all of them. -/
def value (c : Challenge) (challenges : List Felt) : Felt := challenges[c.index]?.getD 0

end Challenge

def plainChallenges : Nat := 3

def dilutedChallenges : Nat := 6

namespace Term

def pow2 (e : Nat) : Term := constant (.ofNat (1 <<< e))

/-- Zero exactly when `x` is zero or one. -/
def booleanity (x : Term) : Term := x * x - x

end Term

namespace VirtualColumn

/-- The cells beside those of a slot of memory, which hold the values of its addresses. -/
def valueColumn (slot : VirtualColumn) : VirtualColumn := slot.shifted 1

end VirtualColumn

/-- One step of filling the main columns of a trace. -/
inductive Write
  | cell (column row : Nat) (value : Felt)
  /-- An access to memory whose address is on `row`. -/
  | memory (row address : Nat) (value : Felt)
  | rangeCheck (row value : Nat)
  /-- A number whose dilution is on `row`. -/
  | diluted (row value : Nat)
  /-- The trace cannot be filled any further. -/
  | refuse (error : LayoutError)
deriving DecidableEq

namespace Write

/-- Writes the cell of a virtual column with a given index. -/
def at' (c : VirtualColumn) (i : Nat) (value : Felt) : Write := cell c.column (c.row i) value

end Write

/-- The instances of a builtin by their index, the last one of an index counting. -/
def instancesByIndex {α : Type} (builtin : Builtin) (index : α → Nat) (count : Nat)
    (instances : List α) : Except LayoutError (List (Option α)) := do
  for i in instances do
    if count ≤ index i then throw (.tooManyInstances builtin (index i))
  return (List.range count).map fun k => instances.reverse.find? (index · == k)

end CairoTrace
