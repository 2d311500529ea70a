import CairoTrace.Air
import CairoTrace.CommandLine.Request
import CairoTrace.Machine.RunFile

/-!
# The command line

The program prints layouts, and checks public inputs and traces. It meets its surroundings at two
places only, which are parameters: it reads files, and it draws the challenges that a verifier
would send.
-/

namespace CairoTrace

namespace CommandLine

/-- What the program needs of its surroundings. -/
structure Host (m : Type → Type) where
  /-- The contents of the file at a path, if there is one. -/
  readFile : String → m (Option ByteArray)
  /-- As many random challenges as are wanted. -/
  challenges : Nat → m (List Felt)

/-- Why a request ends without a report. -/
inductive Failure
  | usage
  | unreadable (path : String)
  | refused (error : LayoutError)
  /-- The memory of a run reaches beyond what can be stored. -/
  | memoryTooLarge
deriving DecidableEq

namespace Failure

def message : Failure → String
  | usage => "the arguments are not understood"
  | unreadable path => s!"cannot read {path}"
  | refused error => error.message
  | memoryTooLarge => "the memory is too large"

def exitCode : Failure → Nat
  | memoryTooLarge => 101
  | _ => 1

end Failure

/-- What a request prints, and whether what it checks holds. -/
structure Report where
  text : String
  holds : Bool
deriving DecidableEq, Repr

def Report.exitCode (r : Report) : Nat := if r.holds then 0 else 1

/-! ## Texts -/

def unlines (lines : List String) : String := String.join (lines.map (· ++ "\n"))

/-- A number with blanks before it, at least three characters long. -/
def index (i : Nat) : String :=
  let digits := String.ofList (Numeral.decimalDigits i)
  padRight (3 - digits.length) "" ++ digits

def rowsText (c : Constraint) : String :=
  let exclusions := c.exclusions.map (·.describe)
  if exclusions = [] then c.domain.describe
  else s!"{c.domain.describe} except {Layout.bracket exclusions}"

def infoText (l : Layout) : String :=
  let builtins := Layout.bracket (l.config.builtins.map fun b => Text.quote b.name)
  unlines <|
    [s!"layout `{l.config.name}`: trace length {l.traceLength}, {l.columnNames.length} columns " ++
        s!"({l.interactionColumns} interaction), {l.challengeCount} challenges",
      s!"builtins: {builtins}", "", "columns:"] ++
    l.columnNames.zipIdx.map (fun (name, i) => s!"  {index i} {name}") ++
    ["", s!"mask ({l.mask.length} cells):"] ++
    l.mask.map (fun (column, offset) => s!"  ({column}, {offset})") ++
    ["", s!"constraints ({l.constraints.length}):"] ++
    l.constraints.zipIdx.map fun (c, i) => s!"  {index i} {c.name} on {rowsText c}"

def validText (l : Layout) : String :=
  unlines [s!"public input is valid for layout `{l.config.name}` " ++
    s!"with trace length {l.traceLength}"]

def reportedViolations : Nat := 20

/-- The result of checking the trace of a run. -/
def violationsText (air : Air) (violations : List Violation) : String :=
  unlines <|
    (violations.take reportedViolations).map (fun v =>
      s!"constraint {v.constraint} `{v.name}` fails on row {v.row}") ++
    if violations = [] then [s!"all {air.layout.constraints.length} constraints hold"]
    else [s!"{violations.length} failing rows"]

/-! ## Paths -/

/-- A path without the slashes that it ends in. -/
def dropSlashes (path : List Char) : List Char := (path.reverse.dropWhile (· == '/')).reverse

/-- The directory of a file, unless the path names none. -/
def directory? (path : String) : Option String :=
  match dropSlashes path.toList with
  | [] => none
  | file =>
    match (file.reverse.dropWhile (· != '/')).reverse with
    | [] => some ""
    | parent =>
      match dropSlashes parent with
      | [] => some "/"
      | directory => some (String.ofList directory)

/-- A path as it is seen from the directory of a file. -/
def resolve (file path : String) : String :=
  match path.toList, directory? file with
  | '/' :: _, _ | _, none | _, some "" => path
  | _, some "/" => "/" ++ path
  | _, some directory => s!"{directory}/{path}"

/-! ## Running -/

variable {m : Type → Type} [Monad m]

/-- A result that may be a failure. -/
def accept {α : Type} : Except LayoutError α → ExceptT Failure m α
  | .ok a => return a
  | .error e => throw (.refused e)

namespace Host

def bytes (host : Host m) (path : String) : ExceptT Failure m (List UInt8) := do
  let some bytes ← host.readFile path | throw (.unreadable path)
  return bytes.toList

def text (host : Host m) (path : String) : ExceptT Failure m String := do
  let some bytes ← host.readFile path | throw (.unreadable path)
  let some text := String.fromUTF8? bytes | throw (.unreadable path)
  return text

def config (host : Host m) (task : Task) : ExceptT Failure m LayoutConfig := do
  match task.layoutConfig with
  | some path => accept (LayoutConfig.ofJson (← host.text path))
  | none => accept (LayoutConfig.ofName task.layout)

/-- The points of the Pedersen hash, if a task names a file of them. -/
def params (host : Host m) (task : Task) : ExceptT Failure m (Option Pedersen.Params) := do
  match task.pedersenParams with
  | some path =>
    accept ((some <$> Pedersen.Params.ofJson (← host.text path)).mapError LayoutError.builtin)
  | none => return none

/-- The constraint system of the run whose public input is at a path. -/
def air (host : Host m) (config : LayoutConfig) (params : Option Pedersen.Params)
    (publicInput : String) : ExceptT Failure m Air := do
  let input ← accept ((PublicInput.ofJson (← host.text publicInput)).mapError LayoutError.input)
  accept (Air.build config params input)

/-- The run whose private input is at a path. Its files are found from the directory of that
path. -/
def execution (host : Host m) (privateInput : String) : ExceptT Failure m Execution := do
  let inputs ←
    accept ((PrivateInput.ofJson (← host.text privateInput)).mapError LayoutError.document)
  let registers ← host.bytes (resolve privateInput inputs.registersPath)
  let registers ← accept ((Registers.listOfBytes registers).mapError LayoutError.input)
  let memory ← host.bytes (resolve privateInput inputs.memoryPath)
  let memory ← accept ((Memory.ofBytes memory).mapError LayoutError.input)
  if ¬ memory.fits then throw .memoryTooLarge
  return { inputs, registers, memory }

def runTask (host : Host m) (task : Task) : ExceptT Failure m Report := do
  let config ← host.config task
  let params ← host.params task
  match task.command with
  | .info traceLength =>
    let layout ← accept (Layout.build config traceLength params)
    return ⟨infoText layout, true⟩
  | .checkPublicInput publicInput =>
    let air ← host.air config params publicInput
    return ⟨validText air.layout, true⟩
  | .checkTrace publicInput privateInput =>
    let air ← host.air config params publicInput
    let execution ← host.execution privateInput
    let violations ← accept (air.check execution (← host.challenges air.layout.challengeCount))
    return ⟨violationsText air violations, violations.isEmpty⟩

end Host

def run (host : Host m) (arguments : List String) : m (Except Failure Report) :=
  match Request.ofArguments? arguments with
  | none => return .error .usage
  | some (.print text) => return .ok ⟨unlines [text], true⟩
  | some (.run task) => (host.runTask task).run

end CommandLine

end CairoTrace
