import CairoTrace.Builtin
import CairoTrace.InputError
import CairoTrace.Json.Reader
import CairoTrace.Json.Writer

/-!
# Public input

What the verifier of a run knows about it: the number of its steps, the bounds of its range
checked offsets, where its memory segments lie, and the part of its memory that is public. The
program starts at the start of the program segment and stops at its end, and the allocation
pointer moves from the start of the execution segment to its end.
-/

namespace CairoTrace

/-- A range of addresses, without `stop`. -/
structure Segment where
  start : Nat
  stop : Nat
deriving DecidableEq, Repr, Inhabited

namespace Segment

def length (s : Segment) : Nat := s.stop - s.start

end Segment

/-- Where the parts of memory lie; a builtin that the program does not use has no segment. -/
structure MemorySegments where
  program : Segment
  execution : Segment
  builtin : Builtin → Option Segment

instance : BEq MemorySegments where
  beq a b := a.program == b.program && a.execution == b.execution &&
    Builtin.all.all fun builtin => a.builtin builtin == b.builtin builtin

structure MemoryEntry where
  address : Nat
  value : Felt
deriving DecidableEq, Inhabited

structure PublicInput where
  rangeCheckMin : Nat
  rangeCheckMax : Nat
  steps : Nat
  layout : String
  segments : MemorySegments
  memory : List MemoryEntry
deriving BEq

namespace PublicInput

def initialPc (i : PublicInput) : Nat := i.segments.program.start

def finalPc (i : PublicInput) : Nat := i.segments.program.stop

def initialAp (i : PublicInput) : Nat := i.segments.execution.start

def finalAp (i : PublicInput) : Nat := i.segments.execution.stop

/-- The entry that fills the unused places for public memory in a trace. -/
def padding (i : PublicInput) : Except InputError MemoryEntry :=
  match i.memory.find? (·.address == 1) with
  | some entry => .ok entry
  | none => .error .missingPublicMemoryPadding

end PublicInput

/-! ## Reading -/

def Segment.read : Json.Reader Segment :=
  Json.numbers [("begin_addr", Json.nat (1 <<< 32)), ("stop_ptr", Json.nat (1 <<< 32))] fun
    | [start, stop] => some ⟨start, stop⟩
    | _ => none

/-- The address and the value of an entry. -/
def MemoryEntry.readWord : Json.Reader (Nat × Word) :=
  Json.numbers [("value", Json.numeral), ("address", Json.nat (1 <<< 32))] fun
    | [value, address] => some (address, value)
    | _ => none

/-- Entries of memory. Their values have to be field elements, which is seen only once all of
them have been read. -/
def MemoryEntry.readList : Json.Reader (List MemoryEntry) := do
  let words ← Json.list readWord
  words.mapM fun (address, word) =>
    match Residue.ofCanonical? word with
    | some value => pure ⟨address, value⟩
    | none => throw .mismatched

/-- The memory segments that have been read so far. -/
structure MemorySegments.Partial where
  program : Option Segment := none
  execution : Option Segment := none
  builtin : Builtin → Option (Option Segment) := fun _ => none

open Json (Member) in
def MemorySegments.members : List (Member MemorySegments.Partial) :=
  .required "program" (·.program) Segment.read (fun s x => { s with program := x }) ::
  .required "execution" (·.execution) Segment.read (fun s x => { s with execution := x }) ::
  Builtin.all.map fun b =>
    .optional b.name (·.builtin b) (Json.option Segment.read) fun s x =>
      { s with builtin := fun b' => if b' = b then some x else s.builtin b' }

def MemorySegments.read : Json.Reader MemorySegments :=
  Json.record members {} fun s =>
    return ⟨← s.program, ← s.execution, fun b => (s.builtin b).join⟩

/-- The public input that has been read so far. -/
structure PublicInput.Partial where
  rangeCheckMin : Option Nat := none
  rangeCheckMax : Option Nat := none
  steps : Option Nat := none
  layout : Option String := none
  segments : Option MemorySegments := none
  memory : Option (List MemoryEntry) := none

namespace PublicInput

open Json (Member) in
def members : List (Member Partial) := [
  .required "rc_min" (·.rangeCheckMin) (Json.nat (1 <<< 16)) fun s x =>
    { s with rangeCheckMin := x },
  .required "rc_max" (·.rangeCheckMax) (Json.nat (1 <<< 16)) fun s x =>
    { s with rangeCheckMax := x },
  .required "n_steps" (·.steps) (Json.nat (1 <<< 64)) fun s x => { s with steps := x },
  .required "layout" (·.layout) Json.string fun s x => { s with layout := x },
  .required "memory_segments" (·.segments) MemorySegments.read fun s x => { s with segments := x },
  .required "public_memory" (·.memory) MemoryEntry.readList fun s x => { s with memory := x }]

def read : Json.Reader PublicInput :=
  Json.record members {} fun s =>
    return ⟨← s.rangeCheckMin, ← s.rangeCheckMax, ← s.steps, ← s.layout, ← s.segments, ← s.memory⟩

def ofJson (text : String) : Except InputError PublicInput :=
  (Json.parse read text).mapError .document

end PublicInput

/-! ## Writing -/

def Segment.write (s : Segment) : List Char :=
  Json.writeObject [
    ("begin_addr", some (Json.writeNat s.start)),
    ("stop_ptr", some (Json.writeNat s.stop))]

def MemorySegments.write (s : MemorySegments) : List Char :=
  Json.writeObject (
    ("program", some s.program.write) ::
    ("execution", some s.execution.write) ::
    Builtin.all.map fun b => (b.name, (s.builtin b).map (·.write)))

def MemoryEntry.write (e : MemoryEntry) : List Char :=
  Json.writeObject [
    ("address", some (Json.writeNat e.address)),
    ("value", some (Json.writeString (Numeral.hex e.value.val)))]

def PublicInput.toJson (i : PublicInput) : String :=
  String.ofList (Json.writeObject [
    ("rc_min", some (Json.writeNat i.rangeCheckMin)),
    ("rc_max", some (Json.writeNat i.rangeCheckMax)),
    ("n_steps", some (Json.writeNat i.steps)),
    ("layout", some (Json.writeString i.layout)),
    ("memory_segments", some i.segments.write),
    ("public_memory", some (Json.writeList (i.memory.map (·.write))))])

end CairoTrace
