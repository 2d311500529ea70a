/-!
# Arguments

A command takes options, each with a value: `--name value` or `--name=value`. Options stand before
the name of a command, if the command has commands of its own. Every command answers a request for
its description, or for its version, as soon as one is read.
-/

namespace CairoTrace

namespace CommandLine

structure OptionSpec where
  name : String
  about : String := ""
  default : Option String := none
  required : Bool := false

structure CommandSpec where
  name : String
  about : String
  /-- The options in alphabetical order. -/
  options : List OptionSpec

/-- Why arguments do not end in something to do. -/
inductive Stop
  | usage
  | helpWanted
  | versionWanted
deriving DecidableEq, Repr

inductive Form
  /-- `--`, which ends the options. -/
  | separator
  /-- `--name`, or `--name=value`. -/
  | long (name : String) (value : Option String)
  /-- `-x`; letters may follow. -/
  | short (letter : Char)
  | word (text : String)
deriving DecidableEq, Repr

namespace Form

/-- The text after dashes as the name of an option and the value that is attached to it. More than
one equals sign counts as one. -/
def ofLong (body : List Char) : Form :=
  let name := String.ofList (body.takeWhile (· != '='))
  match body.dropWhile (· != '=') with
  | [] => long name none
  | value => long name (some (String.ofList (value.dropWhile (· == '='))))

def ofChars : List Char → Form
  | ['-', '-'] => separator
  | '-' :: '-' :: body => ofLong (body.dropWhile (· == '-'))
  | '-' :: letter :: _ => short letter
  | text => word (String.ofList text)

def ofArgument (argument : String) : Form := ofChars argument.toList

end Form

/-- Options by name in the order of the arguments, the last first, each with its value if it has
one. -/
abbrev Given := List (String × Option String)

def Given.setLast (value : String) : Given → Given
  | [] => []
  | (name, _) :: rest => (name, some value) :: rest

/-- Reads options up to the name of a command, and returns that name with the arguments after it.
The last option is `waiting` when the next argument may be its value. -/
def scan (options : List OptionSpec) (commands : List String) :
    (given : Given) → (waiting : Bool) → List String →
      Except Stop (Given × Option (String × List String))
  | given, _, [] => .ok (given, none)
  | given, waiting, argument :: rest =>
    match Form.ofArgument argument with
    | .separator => if rest = [] then .ok (given, none) else .error .usage
    | .word text =>
      if waiting then scan options commands (given.setLast text) false rest
      else if text ∈ commands then .ok (given, some (text, rest))
      else .error .usage
    | .long name value =>
      if options.any (·.name == name) then
        scan options commands ((name, value) :: given) value.isNone rest
      else if name = "help" then .error .helpWanted
      else if name = "version" then .error .versionWanted
      else .error .usage
    | .short 'h' => .error .helpWanted
    | .short 'V' => .error .versionWanted
    | .short _ => .error .usage

/-- The value of an option, which may be given once. -/
def OptionSpec.value? (o : OptionSpec) (given : Given) : Except Stop (Option String) :=
  match given.filter (·.1 == o.name) with
  | [] => if o.required then .error .usage else .ok o.default
  | [(_, some value)] => .ok (some value)
  | [(_, none)] => if o.default.isNone then .error .usage else .ok o.default
  | _ => .error .usage

/-- The value of an option that always has one. -/
def OptionSpec.value (o : OptionSpec) (given : Given) : Except Stop String := do
  let some value ← o.value? given | throw .usage
  return value

end CommandLine

end CairoTrace
