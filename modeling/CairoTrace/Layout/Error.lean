import CairoTrace.Builtin
import CairoTrace.Builtin.Error
import CairoTrace.Constraint.Error

/-!
# Faults of layouts

Why a layout cannot be built, or why an execution cannot be laid out in one.
-/

namespace CairoTrace

inductive LayoutError
  /-- A layout is wanted over another field than the Stark field. -/
  | unsupportedField
  | unsupportedBuiltin (builtin : Builtin)
  /-- A program uses a builtin that the layout does not have. -/
  | unexpectedSegment (builtin : Builtin)
  /-- A program does not use a builtin that the layout has. -/
  | missingSegment (builtin : Builtin)
  | unknownLayout (name : String)
  | layoutMismatch (expected actual : String)
  | invalidTraceLength (n : Nat)
  | invalidRatio (builtin : Builtin) (ratio : Nat)
  | poolExhausted (pool : String)
  | publicMemoryOverflow (length capacity : Nat)
  | tooManyInstances (builtin : Builtin) (index : Nat)
  | memoryMismatch (address : Nat)
  | rangeCheckBounds (value min max : Nat)
  | stepCount (expected actual : Nat)
  | invalidAddress (address : Nat)
  | missingPedersenParams
  | challengeCount (expected actual : Nat)
  | constraint (error : ConstraintError)
  | input (error : InputError)
  | builtin (error : BuiltinError)
  | document (fault : Json.Fault)
deriving DecidableEq

namespace LayoutError

def message : LayoutError → String
  | unsupportedField => "layouts are only defined over the Stark field"
  | unsupportedBuiltin b => s!"builtin `{b.name}` is not supported"
  | unexpectedSegment b =>
    s!"public input has a `{b.name}` segment but the layout has no such builtin"
  | missingSegment b =>
    s!"layout has builtin `{b.name}` but the public input has no segment for it"
  | unknownLayout name => s!"unknown layout `{name}`"
  | layoutMismatch expected actual =>
    s!"public input is for layout `{actual}` but the layout is `{expected}`"
  | invalidTraceLength n => s!"trace length {n} is not a power of two multiple of the cycle height"
  | invalidRatio b ratio => s!"ratio {ratio} is not valid for builtin `{b.name}`"
  | poolExhausted pool => s!"no free cells left in the {pool} pool"
  | publicMemoryOverflow length capacity =>
    s!"{length} public memory entries do not fit in {capacity} public memory cells"
  | tooManyInstances b index => s!"builtin `{b.name}` instance {index} does not fit in the trace"
  | memoryMismatch address => s!"memory address {address} is assigned two different values"
  | rangeCheckBounds value min max => s!"range checked value {value} is outside [{min}, {max}]"
  | stepCount expected actual => s!"expected {expected} execution steps but got {actual}"
  | invalidAddress address => s!"address {address} does not fit in a field element of the trace"
  | missingPedersenParams =>
    "layout has a pedersen builtin but no pedersen parameters were given"
  | challengeCount expected actual =>
    s!"expected {expected} interaction elements but got {actual}"
  | constraint error => error.message
  | input error => error.message
  | builtin error => error.message
  | document _ => "the document cannot be read"

end LayoutError

end CairoTrace
