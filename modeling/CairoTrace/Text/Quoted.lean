import CairoTrace.Numeral
import CairoTrace.Text.Extending

/-!
# Quoted text

A text in quotes shows every character of it. Quotes, backslashes and the common controls are
written as a backslash with a letter. Characters that could not be seen, and marks that would attach
to the character before them, are written as their code point in hexadecimal digits.
-/

namespace CairoTrace.Text

/-- A code point as an escape. -/
def codeEscape (c : Char) : List Char :=
  ['\\', 'u', '\x7b'] ++ Numeral.hexDigits c.toNat ++ ['\x7d']

def quoteChar (c : Char) : List Char :=
  match c with
  | '"' => ['\\', '"']
  | '\\' => ['\\', '\\']
  | '\n' => ['\\', 'n']
  | '\x0d' => ['\\', 'r']
  | '\t' => ['\\', 't']
  | '\x00' => ['\\', '0']
  | c => if isUnprintable c || isExtending c then codeEscape c else [c]

def quote (s : String) : String := String.ofList ('"' :: s.toList.flatMap quoteChar ++ ['"'])

end CairoTrace.Text
