/-!
# JSON text

What the reader of JSON documents takes from the text one token at a time: blanks, words, numbers
and strings. A document is read once from left to right, and the first fault decides the outcome:
the text is `malformed`, it is `truncated`, or it is JSON of a `mismatched` shape.
-/

namespace CairoTrace.Json

/-- Why a document is refused. -/
inductive Fault
  | malformed
  | mismatched
  | truncated
deriving DecidableEq

/-- Reads a value from the front of a text and leaves the rest. -/
abbrev Reader := StateT (List Char) (Except Fault)

def isBlank (c : Char) : Bool := c == ' ' || c == '\n' || c == '\t' || c == '\x0d'

def isDigit (c : Char) : Bool := '0' ≤ c && c ≤ '9'

/-- Skips blanks and shows the next character without taking it. -/
def peek : Reader (Option Char) := fun text =>
  let text := text.dropWhile isBlank
  .ok (text.head?, text)

/-- Takes one character that has been shown. -/
def advance : Reader Unit := fun text => .ok ((), text.tail)

/-- Skips blanks and shows the next character, which has to be there. -/
def peekSome : Reader Char := do
  match ← peek with
  | some c => pure c
  | none => throw .truncated

def word : List Char → Reader Unit
  | [] => pure ()
  | c :: rest => fun text =>
    match text with
    | [] => .error .truncated
    | d :: text => if d = c then word rest text else .error .malformed

/-! ## Strings -/

/-- The value of four hexadecimal digits. -/
def hexQuad? (a b c d : Char) : Option Nat := do
  let digit (c : Char) : Option Nat :=
    if '0' ≤ c ∧ c ≤ '9' then some (c.toNat - '0'.toNat)
    else if 'a' ≤ c ∧ c ≤ 'f' then some (c.toNat - 'a'.toNat + 10)
    else if 'A' ≤ c ∧ c ≤ 'F' then some (c.toNat - 'A'.toNat + 10)
    else none
  return (((← digit a) * 16 + (← digit b)) * 16 + (← digit c)) * 16 + (← digit d)

/-- The four digits of an escaped code unit. Fewer than four bytes before the end of the text
truncate it. -/
def codeUnit : Reader Nat := fun text =>
  match text with
  | a :: b :: c :: d :: rest =>
    match hexQuad? a b c d with
    | some n => .ok (n, rest)
    | none => .error .malformed
  | short => if (String.ofList short).utf8ByteSize < 4 then .error .truncated else .error .malformed

/-- The character of an escaped code unit: one that opens a pair needs its second half, and one
that closes a pair does not stand alone. -/
def escapedUnit : Reader Char := do
  let high ← codeUnit
  if 0xDC00 ≤ high ∧ high ≤ 0xDFFF then throw .malformed
  if high < 0xD800 ∨ 0xDBFF < high then return Char.ofNat high
  word ['\\', 'u']
  let low ← codeUnit
  if low < 0xDC00 ∨ 0xDFFF < low then throw .malformed
  return Char.ofNat ((high - 0xD800) * 0x400 + (low - 0xDC00) + 0x10000)

/-- The character that a letter after a backslash stands for. -/
def simpleEscape? : Char → Option Char
  | '"' => some '"'
  | '\\' => some '\\'
  | '/' => some '/'
  | 'b' => some '\x08'
  | 'f' => some '\x0c'
  | 'n' => some '\n'
  | 'r' => some '\x0d'
  | 't' => some '\t'
  | _ => none

/-- The character of an escape, after its backslash. -/
def escaped : Reader Char := fun text =>
  match text with
  | [] => .error .truncated
  | 'u' :: rest => escapedUnit rest
  | c :: rest =>
    match simpleEscape? c with
    | some d => .ok (d, rest)
    | none => .error .malformed

/-- An escape in a string that is skipped: halves of a pair need not match. -/
def escapedSkipped : Reader Char := fun text =>
  match text with
  | 'u' :: rest => (fun (_, rest) => (' ', rest)) <$> codeUnit rest
  | text => escaped text

/-- The characters of a string up to its closing quote; `fuel` is the length of the text. -/
def stringTail (escape : Reader Char) : (fuel : Nat) → Reader (List Char)
  | 0 => throw .truncated
  | fuel + 1 => fun text =>
    match text with
    | [] => .error .truncated
    | '"' :: rest => .ok ([], rest)
    | '\\' :: rest => do
      let (c, rest) ← escape rest
      let (cs, rest) ← stringTail escape fuel rest
      return (c :: cs, rest)
    | c :: rest =>
      if c.toNat < 0x20 then .error .malformed
      else do
        let (cs, rest) ← stringTail escape fuel rest
        return (c :: cs, rest)

def stringBody : Reader (List Char) := fun text => stringTail escaped (text.length + 1) text

def skipString : Reader Unit := fun text =>
  (fun (_, rest) => ((), rest)) <$> stringTail escapedSkipped (text.length + 1) text

/-! ## Numbers -/

/-- A number as it is written: sign, digits before the point, digits after it and exponent. -/
structure Literal where
  negative : Bool
  whole : List Char
  fraction : List Char
  exponent : Int
  /-- Whether there is neither a point nor an exponent. -/
  plain : Bool

/-- The digits at the front of the text, none included. -/
def digitRun : Reader (List Char) := fun text =>
  .ok (text.takeWhile isDigit, text.dropWhile isDigit)

/-- Digits of which there is at least one; `short` is the fault when the text ends first. -/
def someDigits (short : Fault) : Reader (List Char) := fun text =>
  match text with
  | [] => .error short
  | c :: _ => if isDigit c then digitRun text else .error .malformed

/-- The digits before the point, which do not open with a zero unless they are one. -/
def wholeDigits (short : Fault) : Reader (List Char) := fun text =>
  match text with
  | '0' :: rest =>
    match rest with
    | d :: _ => if isDigit d then .error .malformed else .ok (['0'], rest)
    | [] => .ok (['0'], rest)
  | text => someDigits short text

/-- The exponent of a number, after its letter. -/
def exponentTail (short : Fault) : Reader Int := fun text => do
  let (negative, text) := match text with
    | '+' :: rest => (false, rest)
    | '-' :: rest => (true, rest)
    | text => (false, text)
  let (ds, rest) ← someDigits short text
  let magnitude := ds.foldl (fun n c => n * 10 + (c.toNat - '0'.toNat)) 0
  return (if negative then -magnitude else magnitude, rest)

/-- The exponent of a number, if it has one. -/
def exponent? (short : Fault) : Reader (Option Int) := fun text =>
  match text with
  | 'e' :: rest => (fun (e, rest) => (some e, rest)) <$> exponentTail short rest
  | 'E' :: rest => (fun (e, rest) => (some e, rest)) <$> exponentTail short rest
  | text => .ok (none, text)

def magnitude (short : Fault) (negative : Bool) : Reader Literal := do
  let whole ← wholeDigits short
  let text ← get
  let fraction? : Option (List Char) ← match text with
    | '.' :: _ => do advance; some <$> someDigits short
    | _ => pure none
  let exponent ← exponent? short
  return {
    negative, whole
    fraction := fraction?.getD []
    exponent := exponent.getD 0
    plain := fraction?.isNone && exponent.isNone }

def literal (short : Fault) : Reader Literal := fun text =>
  match text with
  | '-' :: rest => magnitude short true rest
  | text => magnitude short false text

def digitsValue (ds : List Char) : Nat := ds.foldl (fun n c => n * 10 + (c.toNat - '0'.toNat)) 0

end CairoTrace.Json
