import CairoTrace.CommandLine.Page
import CairoTrace.Numeral

/-!
# Requests

What the arguments of the program can ask for: one of its commands, or a page about them.
-/

namespace CairoTrace

namespace CommandLine

inductive CommandName
  | checkPublicInput
  | checkTrace
  | info
deriving DecidableEq, Repr

inductive Command
  /-- Prints a layout for traces of a given length. -/
  | info (traceLength : Nat)
  /-- Tells whether the public input at a path is valid. -/
  | checkPublicInput (publicInput : String)
  /-- Looks for violations of the constraints by the run whose inputs are at two paths. -/
  | checkTrace (publicInput privateInput : String)
deriving DecidableEq, Repr

/-- A command to run in a layout. -/
structure Task where
  layout : String
  /-- The path of a layout that replaces the named one. -/
  layoutConfig : Option String
  pedersenParams : Option String
  command : Command
deriving DecidableEq, Repr

inductive Request
  | print (text : String)
  | run (task : Task)
deriving DecidableEq, Repr

/-! ## The commands -/

def layoutOption : OptionSpec :=
  { name := "layout", about := "Name of a preset layout", default := some "plain" }

def layoutConfigOption : OptionSpec :=
  { name := "layout-config", about := "JSON layout config. Takes precedence over `--layout`" }

def pedersenParamsOption : OptionSpec :=
  { name := "pedersen-params", about := "JSON file with the Pedersen shift point and base points" }

def traceLengthOption : OptionSpec := { name := "trace-len", default := some "65536" }

def publicInputOption : OptionSpec := { name := "air-public-input", required := true }

def privateInputOption : OptionSpec := { name := "air-private-input", required := true }

def program : CommandSpec :=
  { name := "cairo-air", about := "Cairo AIR constraint system"
    options := [layoutOption, layoutConfigOption, pedersenParamsOption] }

namespace CommandName

/-- The commands in alphabetical order. -/
def all : List CommandName := [checkPublicInput, checkTrace, info]

def spec : CommandName → CommandSpec
  | checkPublicInput =>
    { name := "check-public-input"
      about := "Checks a public input can be proven with the layout"
      options := [publicInputOption] }
  | checkTrace =>
    { name := "check-trace"
      about := "Fills the trace of an execution and checks every constraint on it"
      options := [privateInputOption, publicInputOption] }
  | info =>
    { name := "info"
      about := "Prints the columns, mask and constraints of a layout"
      options := [traceLengthOption] }

def ofName? (name : String) : Option CommandName := all.find? (·.spec.name == name)

def path (c : CommandName) : List String := [program.name, c.spec.name]

def page (c : CommandName) : String := c.spec.page c.path []

end CommandName

/-- The command that describes the others. -/
def helpCommand : String × String :=
  ("help", "Prints this message or the help of the given subcommand(s)")

/-- The commands with what they do, in alphabetical order. -/
def commandTable : List (String × String) :=
  let entry (c : CommandName) : String × String := (c.spec.name, c.spec.about)
  [entry .checkPublicInput, entry .checkTrace, helpCommand, entry .info]

def programPage : String := program.page [program.name] commandTable

/-- The page of the command that describes the others. -/
def helpPage : String :=
  "\n".intercalate [s!"{program.name}-help ", helpCommand.2, "", "USAGE:",
    s!"    {program.name} help [subcommand]...", "", "ARGS:",
    "    <subcommand>...    The subcommand whose help message to display"]

/-! ## Reading -/

/-- A number of machine size in decimal digits, with or without a plus sign. -/
def size? (text : String) : Option Nat := do
  let digits := match text.toList with
    | '+' :: rest => rest
    | all => all
  if digits = [] ∨ '_' ∈ digits then none
  let n ← Numeral.digits? 10 0 digits
  if n < 1 <<< 64 then some n else none

def CommandName.read (given : Given) : CommandName → Except Stop Command
  | info => do
    let some traceLength := size? (← traceLengthOption.value given) | throw .usage
    return .info traceLength
  | checkPublicInput => return .checkPublicInput (← publicInputOption.value given)
  | checkTrace =>
    return .checkTrace (← publicInputOption.value given) (← privateInputOption.value given)

/-- What there is to print when arguments stop at a command. -/
def Stop.request? (path : List String) (page : String) : Stop → Option Request
  | usage => none
  | helpWanted => some (.print page)
  | versionWanted => some (.print (title path))

def requestHelp? : List String → Option Request
  | [] => some (.print programPage)
  | ["help"] => some (.print helpPage)
  | [name] => (CommandName.ofName? name).map (.print ·.page)
  | _ => none

/-- The task of a command, from the options of the program and of the command. -/
def Task.read (given : Given) (command : Command) : Except Stop Task :=
  return {
    layout := ← layoutOption.value given
    layoutConfig := ← layoutConfigOption.value? given
    pedersenParams := ← pedersenParamsOption.value? given
    command }

/-- What the arguments of the program ask for, unless they are not understood. -/
def Request.ofArguments? (arguments : List String) : Option Request :=
  match scan program.options (commandTable.map (·.1)) [] false arguments with
  | .error stop => stop.request? [program.name] programPage
  | .ok (_, none) => none
  | .ok (given, some (name, rest)) =>
    match CommandName.ofName? name with
    | none => requestHelp? rest
    | some c =>
      let task := do
        let (own, _) ← scan c.spec.options [] [] false rest
        Task.read given (← c.read own)
      match task with
      | .ok task => some (.run task)
      | .error stop => stop.request? c.path c.page

end CommandLine

end CairoTrace
