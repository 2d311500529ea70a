/-!
# Written numbers

Numbers are read with an optional radix mark, `0x`, `0o` or `0b` in either case, and ten as the
radix without one. Underscores between digits are skipped, and no digits at all read as zero.
They are written in lower case hexadecimal with the fewest digits.
-/

namespace CairoTrace.Numeral

/-- The value of a digit, letters of either case counting up from ten. -/
def digitValue? (c : Char) : Option Nat :=
  if '0' ≤ c ∧ c ≤ '9' then some (c.toNat - '0'.toNat)
  else if 'a' ≤ c ∧ c ≤ 'z' then some (c.toNat - 'a'.toNat + 10)
  else if 'A' ≤ c ∧ c ≤ 'Z' then some (c.toNat - 'A'.toNat + 10)
  else none

/-- Reads digits onto the value `acc` of those before them. -/
def digits? (radix : Nat) : (acc : Nat) → List Char → Option Nat
  | acc, [] => some acc
  | acc, c :: rest =>
    if c = '_' then digits? radix acc rest
    else match digitValue? c with
      | some d => if d < radix then digits? radix (acc * radix + d) rest else none
      | none => none

/-- The radix that a text announces and its digits. -/
def splitRadix : List Char → Nat × List Char
  | '0' :: 'x' :: rest => (16, rest)
  | '0' :: 'X' :: rest => (16, rest)
  | '0' :: 'o' :: rest => (8, rest)
  | '0' :: 'O' :: rest => (8, rest)
  | '0' :: 'b' :: rest => (2, rest)
  | '0' :: 'B' :: rest => (2, rest)
  | text => (10, text)

/-- The number below `2 ^ 256` that a text writes. -/
def ofText? (text : List Char) : Option Nat :=
  let (radix, digits) := splitRadix text
  (digits? radix 0 digits).filter (· < 1 <<< 256)

/-- The digit of a value below sixteen. -/
def hexDigit (n : Nat) : Char :=
  if n < 10 then Char.ofNat ('0'.toNat + n) else Char.ofNat ('a'.toNat + (n - 10))

/-- The digits of a number, the highest first, in front of `tail`; `fuel` bounds their count. -/
def digitsOnto (radix : Nat) : (fuel : Nat) → Nat → List Char → List Char
  | 0, _, tail => tail
  | fuel + 1, n, tail =>
    let tail := hexDigit (n % radix) :: tail
    if n < radix then tail else digitsOnto radix fuel (n / radix) tail

def hexDigits (n : Nat) : List Char := digitsOnto 16 (n.log2 + 1) n []

def decimalDigits (n : Nat) : List Char := digitsOnto 10 (n.log2 + 1) n []

def hex (n : Nat) : String := String.ofList ('0' :: 'x' :: hexDigits n)

end CairoTrace.Numeral
