import CairoTrace.Builtin.Dilution
import CairoTrace.Json.Reader
import CairoTrace.Json.Writer
import CairoTrace.Layout.Error

/-!
# Layout configurations

Which builtins a layout has and how often. The ratio of a builtin is the number of steps of the
processor for each of its instances, so that an instance with ratio `r` spans `16·r` rows.
-/

namespace CairoTrace

/-- The rows of a step of the processor. -/
def cycleHeight : Nat := 16

structure RangeCheckConfig where
  ratio : Nat
  /-- The parts of a range checked word. -/
  parts : Nat := 8
deriving DecidableEq

structure BitwiseConfig where
  ratio : Nat
  totalBits : Nat := 251
deriving DecidableEq

structure DilutedPoolConfig where
  spacing : Nat := 4
  bits : Nat := 16
deriving DecidableEq

structure LayoutConfig where
  name : String
  /-- The bound on the degree of the composition polynomial in units of the trace length. -/
  constraintDegree : Nat := 2
  output : Bool := false
  pedersen : Option Nat := none
  rangeCheck : Option RangeCheckConfig := none
  ecdsa : Option Nat := none
  bitwise : Option BitwiseConfig := none
  ecOp : Option Nat := none
  keccak : Option Nat := none
  poseidon : Option Nat := none
  dilutedPool : Option DilutedPoolConfig := none
deriving DecidableEq

namespace LayoutConfig

/-- The processor, the memory and the range check of offsets alone. -/
def plain : LayoutConfig := { name := "plain" }

/-- The layout of executions of the verifier. -/
def recursive : LayoutConfig where
  name := "recursive"
  output := true
  pedersen := some 128
  rangeCheck := some { ratio := 8 }
  bitwise := some { ratio := 8 }
  dilutedPool := some {}

def ofName (name : String) : Except LayoutError LayoutConfig :=
  match [plain, recursive].find? (·.name == name) with
  | some config => .ok config
  | none => .error (.unknownLayout name)

def has (c : LayoutConfig) : Builtin → Bool
  | .output => c.output
  | .pedersen => c.pedersen.isSome
  | .rangeCheck => c.rangeCheck.isSome
  | .ecdsa => c.ecdsa.isSome
  | .bitwise => c.bitwise.isSome
  | .ecOp => c.ecOp.isSome
  | .keccak => c.keccak.isSome
  | .poseidon => c.poseidon.isSome

def builtins (c : LayoutConfig) : List Builtin := Builtin.all.filter c.has

/-- How the operands of the bitwise builtin are diluted, in a layout that has it. -/
def dilution (c : LayoutConfig) : Option Dilution :=
  c.bitwise.map fun bitwise =>
    let pool := c.dilutedPool.getD {}
    ⟨pool.spacing, pool.bits, bitwise.totalBits⟩

/-! ## Validity -/

/-- Refuses a ratio that is no power of two or below `least`. -/
def checkRatio (builtin : Builtin) (least ratio : Nat) : Except LayoutError Unit :=
  if isPowerOfTwo ratio ∧ least ≤ ratio then .ok () else .error (.invalidRatio builtin ratio)

/-- Whether words of up to 251 digits are split into strands of up to 32, so that a sum of strands
is still a field element. -/
def isUsable (d : Dilution) : Bool :=
  0 < d.spacing && 0 < d.bits && d.bits ≤ 32 && d.chunkBits ≤ 256 && 0 < d.totalBits &&
    d.totalBits < 252

/-- Refuses the parts of a word that do not fit in an instance of the range check. -/
def checkRangeCheck (r : RangeCheckConfig) : Except LayoutError Unit := do
  checkRatio .rangeCheck 1 r.ratio
  if ¬ isPowerOfTwo r.parts ∨ r.ratio * cycleHeight < r.parts then
    throw (.invalidRatio .rangeCheck r.ratio)

/-- Refuses a dilution that is not usable. -/
def checkDilution (d : Dilution) : Except LayoutError Unit :=
  if isUsable d then .ok () else .error (.invalidRatio .bitwise d.totalBits)

/-- Refuses the configurations that no trace length makes a layout of. -/
def validate (c : LayoutConfig) : Except LayoutError Unit := do
  if c.keccak.isSome then throw (.unsupportedBuiltin .keccak)
  if c.poseidon.isSome then throw (.unsupportedBuiltin .poseidon)
  c.pedersen.forM (checkRatio .pedersen 32)
  c.rangeCheck.forM checkRangeCheck
  c.ecdsa.forM (checkRatio .ecdsa 32)
  c.ecOp.forM (checkRatio .ecOp 16)
  c.bitwise.forM (checkRatio .bitwise 4 ·.ratio)
  c.dilution.forM checkDilution

/-! ## Reading -/

/-- The configuration that has been read so far. -/
structure Partial where
  name : Option String := none
  constraintDegree : Option Nat := none
  output : Option (Option Unit) := none
  pedersen : Option (Option Nat) := none
  rangeCheck : Option (Option RangeCheckConfig) := none
  ecdsa : Option (Option Nat) := none
  bitwise : Option (Option BitwiseConfig) := none
  ecOp : Option (Option Nat) := none
  keccak : Option (Option Nat) := none
  poseidon : Option (Option Nat) := none
  dilutedPool : Option (Option DilutedPoolConfig) := none

/-- A number of machine size. -/
def size : Json.Reader Nat := Json.nat (1 <<< 64)

/-- A record of a ratio alone. -/
def readRatio : Json.Reader Nat :=
  Json.numbers [("ratio", size)] fun
    | [ratio] => some ratio
    | _ => none

open Json (Member) in
/-- A record of a ratio and a number that may be left out. -/
def readRatioAnd {α : Type} (name : String) (build : Nat → Option Nat → α) : Json.Reader α :=
  let members : List (Member (Option Nat × Option Nat)) := [
    .required "ratio" (·.1) size fun s n => (some n, s.2),
    .optional name (·.2) size fun s n => (s.1, some n)]
  Json.record members (none, none) fun s => return build (← s.1) s.2

def readRangeCheck : Json.Reader RangeCheckConfig :=
  readRatioAnd "n_parts" fun
    | ratio, some parts => { ratio, parts }
    | ratio, none => { ratio }

def readBitwise : Json.Reader BitwiseConfig :=
  readRatioAnd "total_n_bits" fun
    | ratio, some totalBits => { ratio, totalBits }
    | ratio, none => { ratio }

def readDilutedPool : Json.Reader DilutedPoolConfig :=
  Json.numbers [("spacing", size), ("n_bits", size)] fun
    | [spacing, bits] => some { spacing, bits }
    | _ => none

/-- A record without members. -/
def readEmpty : Json.Reader Unit := Json.numbers [] fun _ => some ()

open Json (Member option) in
/-- The members of the record of a configuration. -/
def members : List (Member Partial) := [
  .required "name" (·.name) Json.string fun s x => { s with name := x },
  .optional "constraint_degree" (·.constraintDegree) size fun s x =>
    { s with constraintDegree := x },
  .optional "output" (·.output) (option readEmpty) fun s x => { s with output := some x },
  .optional "pedersen" (·.pedersen) (option readRatio) fun s x => { s with pedersen := some x },
  .optional "range_check" (·.rangeCheck) (option readRangeCheck) fun s x =>
    { s with rangeCheck := some x },
  .optional "ecdsa" (·.ecdsa) (option readRatio) fun s x => { s with ecdsa := some x },
  .optional "bitwise" (·.bitwise) (option readBitwise) fun s x => { s with bitwise := some x },
  .optional "ec_op" (·.ecOp) (option readRatio) fun s x => { s with ecOp := some x },
  .optional "keccak" (·.keccak) (option readRatio) fun s x => { s with keccak := some x },
  .optional "poseidon" (·.poseidon) (option readRatio) fun s x => { s with poseidon := some x },
  .optional "diluted_pool" (·.dilutedPool) (option readDilutedPool) fun s x =>
    { s with dilutedPool := some x }]

def read : Json.Reader LayoutConfig :=
  Json.record members {} fun s => do
    let config : LayoutConfig := {
      name := ← s.name
      output := s.output.join.isSome
      pedersen := s.pedersen.join
      rangeCheck := s.rangeCheck.join
      ecdsa := s.ecdsa.join
      bitwise := s.bitwise.join
      ecOp := s.ecOp.join
      keccak := s.keccak.join
      poseidon := s.poseidon.join
      dilutedPool := s.dilutedPool.join }
    match s.constraintDegree with
    | some constraintDegree => return { config with constraintDegree }
    | none => return config

/-- The configuration that a document holds, whether or not it is valid. -/
def parse (text : String) : Except Json.Fault LayoutConfig := Json.parse read text

/-- The valid configuration that a document holds. -/
def ofJson (text : String) : Except LayoutError LayoutConfig := do
  let config ← (parse text).mapError .document
  config.validate
  return config

/-! ## Writing -/

/-- A record of numbers. -/
def writeNumbers (members : List (String × Nat)) : List Char :=
  Json.writeObject (members.map fun (name, n) => (name, some (Json.writeNat n)))

/-- The document of a configuration. -/
def toJson (c : LayoutConfig) : String :=
  let ratio (n : Nat) : List Char := writeNumbers [("ratio", n)]
  String.ofList (Json.writeObject [
    ("name", some (Json.writeString c.name)),
    ("constraint_degree", some (Json.writeNat c.constraintDegree)),
    ("output", if c.output then some (writeNumbers []) else none),
    ("pedersen", c.pedersen.map ratio),
    ("range_check", c.rangeCheck.map fun r =>
      writeNumbers [("ratio", r.ratio), ("n_parts", r.parts)]),
    ("ecdsa", c.ecdsa.map ratio),
    ("bitwise", c.bitwise.map fun b =>
      writeNumbers [("ratio", b.ratio), ("total_n_bits", b.totalBits)]),
    ("ec_op", c.ecOp.map ratio),
    ("keccak", c.keccak.map ratio),
    ("poseidon", c.poseidon.map ratio),
    ("diluted_pool", c.dilutedPool.map fun p =>
      writeNumbers [("spacing", p.spacing), ("n_bits", p.bits)])])

end LayoutConfig

end CairoTrace
