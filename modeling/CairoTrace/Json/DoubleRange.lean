import CairoTrace.Json.Text

/-!
# The range of numbers

A number that is no plain integer below `2^64` is held in double precision, and one beyond the
largest double is no number at all. A number is measured as an integer below `2^64`, made of its
leading digits, times a power of ten. Both are rounded to the nearest double, and so is their
product, which decides.
-/

namespace CairoTrace.Json

/-- The nearest number whose binary digits after the first 53 are zeros; of two that are equally
near, the one in which digit 53 is even. -/
def roundDouble (n : Nat) : Nat :=
  let unit := 1 <<< (n.log2 + 1 - 53)
  let q := n / unit
  let r := n % unit
  if unit < 2 * r ∨ (unit = 2 * r ∧ q % 2 = 1) then (q + 1) * unit else q * unit

/-- Appends digits to a number as long as it stays below `2^64`. The digits from the first that
does not fit on are left over. -/
def appendDigits : (n : Nat) → List Char → Nat × List Char
  | n, [] => (n, [])
  | n, c :: rest =>
    let m := n * 10 + (c.toNat - '0'.toNat)
    if m < 1 <<< 64 then appendDigits m rest else (n, c :: rest)

/-- The number `significand · 10^exponent`. -/
structure Scaled where
  significand : Nat
  exponent : Int
deriving DecidableEq

namespace Literal

/-- The leading digits of a number and their power of ten. Every digit left over before the point
counts as a zero; digits left over after it do not count. -/
def scaled (l : Literal) : Scaled :=
  let (n, wholeRest) := appendDigits 0 l.whole
  let (n, fractionRest) := appendDigits n l.fraction
  { significand := n
    exponent := l.exponent + wholeRest.length - (l.fraction.length - fractionRest.length : Nat) }

/-- The exponent of the greatest power of ten that is a double. -/
def maxExponent : Nat := 308

/-- Whether a number is too large for double precision. -/
def overflows (l : Literal) : Bool :=
  let s := l.scaled
  if s.significand = 0 ∨ s.exponent < 0 then false
  else if maxExponent < s.exponent then true
  else
    let power := Nat.pow 10 s.exponent.toNat
    1 <<< 1024 ≤ roundDouble (roundDouble s.significand * roundDouble power)

end Literal

end CairoTrace.Json
