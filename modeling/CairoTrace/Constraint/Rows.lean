import CairoTrace.Felt

/-!
# Sets of rows

A constraint holds on a set of the rows of a trace of length `n`: on every row of an arithmetic
progression, or on a single row counted from either end. The trace domain has a generator `g`, and
row `r` belongs to the point `g^r`. A set of rows is the set of roots of its vanishing factor
`x^e - g^s`.
-/

namespace CairoTrace

inductive Rows
  /-- The rows `offset`, `offset + step`, `offset + 2·step`, … -/
  | every (step offset : Nat)
  | first (k : Nat)
  /-- Row `n - k`. -/
  | fromEnd (k : Nat)
deriving DecidableEq, Repr, Inhabited

/-- The polynomial `x^exponent - g^shift`. -/
structure VanishingFactor where
  exponent : Nat
  shift : Nat
deriving DecidableEq, Repr, Inhabited

/-- The members `start`, `start + step`, … of a progression that lie below `stop`, at most
`limit` of them. -/
def progression (start step stop limit : Nat) : List Nat :=
  (List.range (min limit ((stop - start + step - 1) / step))).map (start + · * step)

namespace Rows

def all : Rows := every 1 0

def last : Rows := fromEnd 1

/-- How a set of rows is shown in messages. -/
def describe : Rows → String
  | every step offset => s!"Every \x7b step: {step}, offset: {offset} \x7d"
  | first k => s!"First({k})"
  | fromEnd k => s!"FromEnd({k})"

/-- The distance between rows; a single row repeats after the length of the trace. -/
def stride (n : Nat) : Rows → Nat
  | every step _ => step
  | first _ => n
  | fromEnd _ => n

def start (n : Nat) : Rows → Nat
  | every _ offset => offset
  | first k => k
  | fromEnd k => n - k

/-- Whether a set of rows lies in a trace of length `n`, a power of two. -/
def fits (n : Nat) : Rows → Bool
  | every step offset => isPowerOfTwo step && step ≤ n && offset < step
  | first k => k < n
  | fromEnd k => 1 ≤ k && k ≤ n

def contains (n : Nat) (rows : Rows) (row : Nat) : Bool :=
  row < n && row % rows.stride n == rows.start n

def length (n : Nat) (rows : Rows) : Nat := n / rows.stride n

/-- Whether every row of `a` is a row of `b`. -/
def isSubset (n : Nat) (a b : Rows) : Bool :=
  a.stride n % b.stride n == 0 && a.start n % b.stride n == b.start n

/-- The lowest rows in ascending order, at most `limit` of them. -/
def take (n : Nat) (rows : Rows) (limit : Nat) : List Nat :=
  progression (rows.start n) (rows.stride n) n limit

def toList (n : Nat) (rows : Rows) : List Nat := rows.take n n

def factor (n : Nat) (rows : Rows) : VanishingFactor :=
  let exponent := n / rows.stride n
  ⟨exponent, rows.start n * exponent % n⟩

end Rows

namespace VanishingFactor

def shiftValue (f : VanishingFactor) (generator : Felt) : Felt := generator ^ f.shift

def eval (f : VanishingFactor) (x generator : Felt) : Felt :=
  x ^ f.exponent - f.shiftValue generator

/-- Whether the factor is zero at the point of a row. -/
def vanishesAt (n : Nat) (f : VanishingFactor) (row : Nat) : Bool :=
  row * f.exponent % n == f.shift

/-- The lowest rows at whose points the factor is zero, at most `limit` of them. -/
def takeRows (n : Nat) (f : VanishingFactor) (limit : Nat) : List Nat :=
  (List.range (min limit f.exponent)).map (f.shift / f.exponent + · * (n / f.exponent))

/-- The rows at whose points the factor is zero. -/
def rows (n : Nat) (f : VanishingFactor) : List Nat := f.takeRows n f.exponent

end VanishingFactor

end CairoTrace
