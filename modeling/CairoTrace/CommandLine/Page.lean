import CairoTrace.CommandLine.Arguments

/-!
# Descriptions of commands

The page that a command prints when its description is asked for: how it is called, and its
options and commands in two columns.
-/

namespace CairoTrace

namespace CommandLine

def version : String := "0.1.0"

/-- The first line of a page, and the answer to a request for the version. The path is the names
of the program and of the command. -/
def title (path : List String) : String := "-".intercalate path ++ " " ++ version

/-- A text with blanks after it up to a width. -/
def padRight (width : Nat) (text : String) : String :=
  text ++ String.ofList (List.replicate (width - text.length) ' ')

/-- Lines in two columns: four blanks are between them. -/
def columns (indent : Nat) (lines : List (String × String)) : List String :=
  let width := (lines.map (·.1.length)).max?.getD 0
  lines.map fun (left, right) => padRight indent "" ++ padRight width left ++ "    " ++ right

def OptionSpec.pattern (o : OptionSpec) : String := s!"--{o.name} <{o.name}>"

def OptionSpec.description (o : OptionSpec) : String :=
  match o.default with
  | none => o.about
  | some value => s!"{o.about} [default: {value}]"

def CommandSpec.pattern (c : CommandSpec) (path : List String) (hasCommands : Bool) : String :=
  let optional := if c.options.any (!·.required) then ["[OPTIONS]"] else []
  let required := (c.options.filter (·.required)).map (·.pattern)
  let command := if hasCommands then ["<SUBCOMMAND>"] else []
  " ".intercalate (path ++ optional ++ required ++ command)

def flagLines : List String :=
  columns 4 [("-h, --help", "Prints help information"),
    ("-V, --version", "Prints version information")]

/-- The page of a command. The path is the names of the program and of the command. -/
def CommandSpec.page (c : CommandSpec) (path : List String) (commands : List (String × String)) :
    String :=
  let sections := [
    [title path, c.about],
    ["USAGE:", "    " ++ c.pattern path (commands ≠ [])],
    "FLAGS:" :: flagLines,
    "OPTIONS:" :: columns 8 (c.options.map fun o => (o.pattern, o.description))] ++
    if commands = [] then [] else ["SUBCOMMANDS:" :: columns 4 commands]
  "\n\n".intercalate (sections.map ("\n".intercalate ·))

end CommandLine

end CairoTrace
