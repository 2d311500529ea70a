import CairoTrace.Builtin.Error

/-!
# Range checked words

A word is range checked by cutting it into parts of sixteen digits, the highest first, each of
which is checked on its own.
-/

namespace CairoTrace.RangeCheck

def partBits : Nat := 16

/-- The lowest `n` parts of a word, the highest first. -/
def split (w : Word) : (n : Nat) → List Nat
  | 0 => []
  | n + 1 => (w >>> (n * partBits)) % (1 <<< partBits) :: split w n

/-- The parts of a word that has no more than `n`. -/
def parts (w : Word) (n : Nat) : Except BuiltinError (List Nat) := do
  checkBits w (n * partBits)
  return split w n

/-- The word of its parts; digits that do not fit a word are lost. -/
def join (parts : List Nat) : Word :=
  parts.foldl (fun w part => (w * (1 <<< partBits) + part) % (1 <<< 256)) 0

end CairoTrace.RangeCheck
