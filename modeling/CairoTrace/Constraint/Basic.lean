import CairoTrace.Constraint.Error
import CairoTrace.Constraint.Expr

/-!
# Constraints

A constraint is a polynomial identity between cells of a trace that holds on a set of rows less
some excluded rows. Its expression reads cells at offsets from the current row, periodic columns,
challenges of the verifier, and hints that are computed from the public input.
-/

namespace CairoTrace

/-- What the expression of a constraint reads. -/
inductive Leaf
  | constant (v : Felt)
  /-- The cell of a column `offset` rows after the current one. -/
  | cell (column : Nat) (offset : Int)
  | periodic (i : Nat)
  | challenge (i : Nat)
  | hint (i : Nat)
deriving DecidableEq

abbrev Term := Expr Leaf

namespace Term

def constant (v : Felt) : Term := .leaf (.constant v)

instance (n : Nat) : OfNat Term n := ⟨constant (.ofNat n)⟩

def periodic (i : Nat) : Term := .leaf (.periodic i)

end Term

/-- A word of 64 bits as the signed number that it stands for in two's complement. -/
def signedWord (n : Nat) : Int := (n : Int).bmod (1 <<< 64)

/-- Every `step`-th cell of a column from row `offset` on. -/
structure VirtualColumn where
  column : Nat
  step : Nat
  offset : Nat
deriving DecidableEq, Repr, Inhabited

namespace VirtualColumn

def row (c : VirtualColumn) (i : Nat) : Nat := c.offset + c.step * i

def length (n : Nat) (c : VirtualColumn) : Nat := n / c.step

/-- The same cells some rows later. -/
def shifted (c : VirtualColumn) (rows : Nat) : VirtualColumn := { c with offset := c.offset + rows }

def rows (c : VirtualColumn) : Rows := .every c.step c.offset

/-- The cell `i` cells after the current one, which is the first on the current row. Offsets are
signed, so a step or an offset from `2^63` on reaches backwards. -/
def cell (c : VirtualColumn) (i : Int) : Term :=
  .leaf (.cell c.column (signedWord c.step * i + signedWord c.offset))

def current (c : VirtualColumn) : Term := c.cell 0

def next (c : VirtualColumn) : Term := c.cell 1

end VirtualColumn

/-- An identity that holds on the rows of `domain` that are not excluded. -/
structure Constraint where
  name : String
  expr : Term
  domain : Rows
  exclusions : List Rows := []

/-! ## What constraints read -/

/-- Inserts into a list in strictly ascending order; an element that is present stays once. -/
def insertSorted {α : Type} (lt : α → α → Bool) (a : α) : List α → List α
  | [] => [a]
  | b :: rest =>
    if lt a b then a :: b :: rest
    else if lt b a then b :: insertSorted lt a rest
    else b :: rest

/-- The elements of a list, each once and in ascending order. -/
def sortedSet {α : Type} (lt : α → α → Bool) (l : List α) : List α :=
  l.foldl (fun set a => insertSorted lt a set) []

/-- A column and an offset from the current row. -/
abbrev Cell := Nat × Int

/-- Cells are ordered by column and then by offset. -/
def cellLt (a b : Cell) : Bool := a.1 < b.1 || (a.1 == b.1 && a.2 < b.2)

namespace Constraint

/-- The constraint without the rows of one more set. -/
def except (c : Constraint) (rows : Rows) : Constraint :=
  { c with exclusions := c.exclusions ++ [rows] }

/-- The cells that a constraint reads, one for each time. -/
def cellLeaves (c : Constraint) : List Cell :=
  c.expr.leaves.filterMap fun
    | .cell column offset => some (column, offset)
    | _ => none

def cells (c : Constraint) : List Cell := sortedSet cellLt c.cellLeaves

/-- The indices that `index` finds in the leaves of a constraint. -/
def indices (index : Leaf → Option Nat) (c : Constraint) : List Nat :=
  sortedSet (· < ·) (c.expr.leaves.filterMap index)

def periodicColumns : Constraint → List Nat :=
  indices fun
    | .periodic i => some i
    | _ => none

def challenges : Constraint → List Nat :=
  indices fun
    | .challenge i => some i
    | _ => none

def hints : Constraint → List Nat :=
  indices fun
    | .hint i => some i
    | _ => none

end Constraint

/-- The mask of constraints: every cell that one of them reads, in ascending order. -/
def deriveMask (constraints : List Constraint) : List Cell :=
  constraints.foldl
    (fun mask c => c.cells.foldl (fun mask cell => insertSorted cellLt cell mask) mask) []

/-! ## Binding -/

/-- A leaf whose challenges and hints have been replaced by their values and whose cells have been
found. -/
inductive BoundLeaf (κ : Type)
  | constant (v : Felt)
  | cell (place : κ)
  | periodic (i : Nat)
deriving DecidableEq, Inhabited

/-- What the leaves of constraints are bound to. -/
structure Bindings where
  challenges : List Felt
  hints : List (Option Felt)
  periodicCount : Nat

/-- Binds a leaf, finding its cell by `locate`. -/
def Leaf.bind {κ : Type} (bindings : Bindings) (locate : Cell → Option κ) :
    Leaf → Except ConstraintError (BoundLeaf κ)
  | constant v => .ok (.constant v)
  | cell column offset =>
    match locate (column, offset) with
    | some place => .ok (.cell place)
    | none => .error (.unknownMaskEntry column offset)
  | periodic i =>
    if i < bindings.periodicCount then .ok (.periodic i) else .error (.missingPeriodicColumn i)
  | challenge i =>
    match bindings.challenges[i]? with
    | some v => .ok (.constant v)
    | none => .error (.missingChallenge i)
  | hint i =>
    match bindings.hints[i]? with
    | some (some v) => .ok (.constant v)
    | _ => .error (.missingHint i)

def BoundLeaf.value {κ : Type} (cell : κ → Felt) (periodic : Nat → Felt) : BoundLeaf κ → Felt
  | constant v => v
  | .cell place => cell place
  | .periodic i => periodic i

end CairoTrace
