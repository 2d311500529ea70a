import CairoTrace.Json.Reader
import CairoTrace.Machine.Instruction

/-!
# Private input

What the prover of a run adds to its public input: the files of its registers and its memory, and
the operands of every instance of a builtin. An instance has an index in its builtin, and its
memory cells lie at consecutive addresses in the segment of the builtin.
-/

namespace CairoTrace

/-- The addresses of instance `index` of a builtin with `cells` memory cells per instance. -/
def instanceAddresses (cells start index : Nat) : List Nat :=
  (List.range cells).map (start + index * cells + ·)

/-- The hash of `a` and `b`. -/
structure PedersenInstance where
  index : Nat
  a : Word
  b : Word
deriving DecidableEq

structure RangeCheckInstance where
  index : Nat
  value : Word
deriving DecidableEq

structure BitwiseInstance where
  index : Nat
  x : Word
  y : Word
deriving DecidableEq

/-- The point `p + m·q`. -/
structure EcOpInstance where
  index : Nat
  pX : Word
  pY : Word
  qX : Word
  qY : Word
  m : Word
deriving DecidableEq

/-- A signature of `message` by one of the two keys with the first coordinate `keyX`. -/
structure EcdsaInstance where
  index : Nat
  keyX : Word
  message : Word
  r : Word
  w : Word
deriving DecidableEq

structure PrivateInput where
  registersPath : String
  memoryPath : String
  pedersen : List PedersenInstance := []
  rangeCheck : List RangeCheckInstance := []
  bitwise : List BitwiseInstance := []
  ecdsa : List EcdsaInstance := []
  ecOp : List EcOpInstance := []

def PedersenInstance.addresses (i : PedersenInstance) (start : Nat) : List Nat :=
  instanceAddresses 3 start i.index

def RangeCheckInstance.address (i : RangeCheckInstance) (start : Nat) : Nat := start + i.index

/-- The operands, their conjunction, their exclusive disjunction and their disjunction. -/
def BitwiseInstance.addresses (i : BitwiseInstance) (start : Nat) : List Nat :=
  instanceAddresses 5 start i.index

/-- The coordinates of both points, the multiplier and the coordinates of the result. -/
def EcOpInstance.addresses (i : EcOpInstance) (start : Nat) : List Nat :=
  instanceAddresses 7 start i.index

def EcdsaInstance.addresses (i : EcdsaInstance) (start : Nat) : List Nat :=
  instanceAddresses 2 start i.index

/-! ## Reading -/

def indexField : String × Json.Reader Nat := ("index", Json.nat (1 <<< 32))

def PedersenInstance.read : Json.Reader PedersenInstance :=
  Json.numbers [indexField, ("x", Json.numeral), ("y", Json.numeral)] fun
    | [index, a, b] => some ⟨index, a, b⟩
    | _ => none

def RangeCheckInstance.read : Json.Reader RangeCheckInstance :=
  Json.numbers [indexField, ("value", Json.numeral)] fun
    | [index, value] => some ⟨index, value⟩
    | _ => none

def BitwiseInstance.read : Json.Reader BitwiseInstance :=
  Json.numbers [indexField, ("x", Json.numeral), ("y", Json.numeral)] fun
    | [index, x, y] => some ⟨index, x, y⟩
    | _ => none

def EcOpInstance.read : Json.Reader EcOpInstance :=
  Json.numbers [indexField, ("p_x", Json.numeral), ("p_y", Json.numeral), ("q_x", Json.numeral),
      ("q_y", Json.numeral), ("m", Json.numeral)] fun
    | [index, pX, pY, qX, qY, m] => some ⟨index, pX, pY, qX, qY, m⟩
    | _ => none

def readSignature : Json.Reader (Word × Word) :=
  Json.numbers [("r", Json.numeral), ("w", Json.numeral)] fun
    | [r, w] => some (r, w)
    | _ => none

/-- The signature instance that has been read so far. -/
structure EcdsaInstance.Partial where
  index : Option Nat := none
  key : Option Word := none
  message : Option Word := none
  signature : Option (Word × Word) := none

open Json (Member) in
def EcdsaInstance.members : List (Member Partial) := [
  .required "index" (·.index) (Json.nat (1 <<< 32)) fun s x => { s with index := x },
  .required "pubkey" (·.key) Json.numeral fun s x => { s with key := x },
  .required "msg" (·.message) Json.numeral fun s x => { s with message := x },
  .required "signature_input" (·.signature) readSignature fun s x => { s with signature := x }]

def EcdsaInstance.read : Json.Reader EcdsaInstance :=
  Json.record members {} fun s => do
    let (r, w) ← s.signature
    return ⟨← s.index, ← s.key, ← s.message, r, w⟩

/-- The private input that has been read so far. -/
structure PrivateInput.Partial where
  registersPath : Option String := none
  memoryPath : Option String := none
  pedersen : Option (List PedersenInstance) := none
  rangeCheck : Option (List RangeCheckInstance) := none
  bitwise : Option (List BitwiseInstance) := none
  ecdsa : Option (List EcdsaInstance) := none
  ecOp : Option (List EcOpInstance) := none

namespace PrivateInput

open Json (Member) in
def members : List (Member Partial) := [
  .required "trace_path" (·.registersPath) Json.string fun s x => { s with registersPath := x },
  .required "memory_path" (·.memoryPath) Json.string fun s x => { s with memoryPath := x },
  .optional "pedersen" (·.pedersen) (Json.list PedersenInstance.read) fun s x =>
    { s with pedersen := x },
  .optional "range_check" (·.rangeCheck) (Json.list RangeCheckInstance.read) fun s x =>
    { s with rangeCheck := x },
  .optional "bitwise" (·.bitwise) (Json.list BitwiseInstance.read) fun s x =>
    { s with bitwise := x },
  .optional "ecdsa" (·.ecdsa) (Json.list EcdsaInstance.read) fun s x => { s with ecdsa := x },
  .optional "ec_op" (·.ecOp) (Json.list EcOpInstance.read) fun s x => { s with ecOp := x }]

def read : Json.Reader PrivateInput :=
  Json.record members {} fun s =>
    return {
      registersPath := ← s.registersPath
      memoryPath := ← s.memoryPath
      pedersen := s.pedersen.getD []
      rangeCheck := s.rangeCheck.getD []
      bitwise := s.bitwise.getD []
      ecdsa := s.ecdsa.getD []
      ecOp := s.ecOp.getD [] }

def ofJson (text : String) : Except Json.Fault PrivateInput := Json.parse read text

end PrivateInput

end CairoTrace
