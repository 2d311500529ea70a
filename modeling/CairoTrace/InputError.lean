import CairoTrace.Machine.Instruction
import CairoTrace.Json.Text
import CairoTrace.Felt

/-!
# Faults of the inputs

Why a run, its memory or a document that describes it cannot be used.
-/

namespace CairoTrace

inductive InputError
  /-- A number that has to be below the modulus of a field is not. -/
  | invalidFieldElement (value modulus : Nat)
  /-- An address that is read holds no value. -/
  | missingMemory (address : Nat)
  /-- A group of flags has a value without a meaning. -/
  | invalidInstruction (pc : Nat) (group : FlagGroup)
  /-- An operand of the instruction at `pc` is at no address. -/
  | addressOverflow (pc : Nat)
  | missingPublicMemoryPadding
  /-- A file ends inside the value of a record. -/
  | shortValue
  /-- A file ends inside the numbers of a record. -/
  | shortRecord
  | document (fault : Json.Fault)
deriving DecidableEq

namespace InputError

def message : InputError → String
  | invalidFieldElement value modulus =>
    s!"invalid value: {value}, must be less than the field modulus {modulus}"
  | missingMemory address => s!"memory address {address} has no value"
  | invalidInstruction pc group => s!"instruction at pc={pc} has an invalid {group.name} encoding"
  | addressOverflow pc => s!"address computation for instruction at pc={pc} is out of range"
  | missingPublicMemoryPadding => "public memory has no entry at address 1 to use as padding"
  | shortValue => "the file ends inside a value"
  | shortRecord => "the file ends inside a record"
  | document _ => "the document cannot be read"

end InputError

/-- The residue of a number, which has to be below the modulus. -/
def residueOf (m n : Nat) : Except InputError (Residue m) :=
  match Residue.ofCanonical? n with
  | some a => .ok a
  | none => .error (.invalidFieldElement n m)

end CairoTrace
