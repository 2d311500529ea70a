import CairoTrace.Numeral

/-!
# Compact JSON text

Documents are written without blanks. In a string the quote, the backslash and the control
characters are escaped, the five common ones by a letter and the others by their code.
-/

namespace CairoTrace.Json

/-- The letter that stands for a character after a backslash. -/
def escapeLetter? : Char → Option Char
  | '"' => some '"'
  | '\\' => some '\\'
  | '\x08' => some 'b'
  | '\x0c' => some 'f'
  | '\n' => some 'n'
  | '\x0d' => some 'r'
  | '\t' => some 't'
  | _ => none

/-- A character as it stands in a string. -/
def escapeChar (c : Char) : List Char :=
  match escapeLetter? c with
  | some letter => ['\\', letter]
  | none =>
    if c.toNat < 0x20 then
      ['\\', 'u', '0', '0', Numeral.hexDigit (c.toNat / 16), Numeral.hexDigit (c.toNat % 16)]
    else [c]

def writeString (s : String) : List Char := '"' :: (s.toList.flatMap escapeChar ++ ['"'])

def writeNat (n : Nat) : List Char := Numeral.decimalDigits n

def commaSeparated : List (List Char) → List Char
  | [] => []
  | [part] => part
  | part :: rest => part ++ ',' :: commaSeparated rest

def writeList (parts : List (List Char)) : List Char := '[' :: (commaSeparated parts ++ [']'])

/-- An object of the members that are present. -/
def writeObject (members : List (String × Option (List Char))) : List Char :=
  '\x7b' :: (commaSeparated (members.filterMap fun (name, value?) =>
    value?.map fun value => writeString name ++ ':' :: value) ++ ['\x7d'])

end CairoTrace.Json
