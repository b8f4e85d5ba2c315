import StackMachine.Text

/-!
# Usage of the commands

The commands of the program with their operands and options, and the help texts that are
made from these descriptions.
-/

namespace StackMachine

namespace Command

/-- An option: its names, and what is written after it if it takes a value. -/
structure Flag where
  short : Option Text := none
  long : Text
  value : Option Text := none
  description : Text
deriving DecidableEq, Repr

/-- The commands. -/
inductive Name where
  | check | run | format | trace | config
deriving DecidableEq, Repr

namespace Name

/-- Every command, in the order in which help lists them. -/
def all : List Name := [check, run, format, trace, config]

/-- The word for a command. -/
def toText : Name → Text
  | check => "check"
  | run => "run"
  | format => "fmt"
  | trace => "trace"
  | config => "config"

/-- What a command does. -/
def summary : Name → Text
  | check => "Assemble and validate without execution"
  | run => "Run a Tally program"
  | format => "Canonical assembly formatter"
  | trace => "Display trace summary"
  | config => "Display effective execution limits and their source"

/-- The file on which a command works. -/
def operand : Name → Option Text
  | check => some "Assembly (.tasm) or instruction array (.json) to check"
  | run => some "Assembly (.tasm) or instruction array (.json) to run (or - for stdin)"
  | format => some "Assembly (.tasm) or instruction array (.json) to format"
  | trace => some "JSONL trace file"
  | config => none

end Name

/-! ### Options -/

namespace Flag

/-- Output for a reader, of the command `check`. -/
def prettyOutput : Flag :=
  { long := "--pretty", description := "Human-readable output (default: false)" }

/-- Output for a reader, of the command `run`. -/
def prettyErrors : Flag :=
  { long := "--pretty", description := "Human-readable error output (default: false)" }

/-- The file for the trace of a run. -/
def trace : Flag :=
  { long := "--trace", value := some "<path>", description := "Write JSONL trace to file" }

/-- The limit on the steps of a run. -/
def maxSteps : Flag :=
  { long := "--max-steps", value := some "<n>"
    description := "Fault after this many executed instructions" }

/-- Writing the formatted text to the file. -/
def write : Flag :=
  { long := "--write", description := "Overwrite file in place (default: false)" }

/-- Output as JSON. -/
def json : Flag := { long := "--json", description := "Output as JSON (default: false)" }

/-- The help text. -/
def help : Flag :=
  { short := some "-h", long := "--help", description := "display help for command" }

/-- The version. -/
def version : Flag :=
  { short := some "-V", long := "--version", description := "output the version number" }

/-- An option as it is written, with what stands for its value. -/
def usage (f : Flag) : Text :=
  match f.value with
  | some value => Text.concat [f.long, " ", value]
  | none => f.long

/-- An option as help lists it. -/
def term (f : Flag) : Text :=
  match f.short with
  | some short => Text.concat [short, ", ", f.usage]
  | none => f.usage

end Flag

/-- The options of a command, `--help` apart. -/
def Name.flags : Name → List Flag
  | .check => [Flag.prettyOutput]
  | .run => [Flag.trace, Flag.maxSteps, Flag.prettyErrors]
  | .format => [Flag.write]
  | .trace => [Flag.json]
  | .config => [Flag.json]

/-! ### Help -/

namespace Help

/-- The width of a page. -/
def width : Nat := 80

/-- Words on lines of at most so many units, of which `line` is the one begun last; a line
has at least one word. -/
def wrapWords (columns : Nat) (line : Text) : List Text → List Text
  | [] => [line]
  | word :: r =>
    let longer := Text.concat [line, " ", word]
    if longer.length ≤ columns then wrapWords columns longer r
    else line :: wrapWords columns word r

/-- A text on lines of at most so many units. -/
def wrap (columns : Nat) (t : Text) : List Text :=
  match List.splitOn 0x20 t with
  | [] => []
  | word :: r => wrapWords columns word r

/-- So many blanks. -/
def blanks (n : Nat) : Text := List.replicate n 0x20

/-- A term and its description on lines with a margin; descriptions begin where the longest
term leaves off. -/
def item (longest : Nat) (entry : Text × Text) : List Text :=
  let margin := 2
  let column := margin + longest + 2
  let term := blanks margin ++ entry.1
  match wrap (width - column - 1) entry.2 with
  | [] => [term]
  | first :: r =>
    (term ++ blanks (column - term.length) ++ first) :: r.map (blanks column ++ ·)

/-- A list of terms under a heading, with an empty line before it; nothing if there are no
terms. -/
def group (longest : Nat) (heading : Text) : List (Text × Text) → List Text
  | [] => []
  | entries => [[], heading] ++ entries.flatMap (item longest)

/-- The lines of a help text: the usage, what it is about, and groups of terms. -/
def page (usage summary : Text) (groups : List (Text × List (Text × Text))) : Text :=
  let longest := ((groups.flatMap (·.2)).map (·.1.length)).max?.getD 0
  Text.join "\n" ([usage, [], summary] ++ groups.flatMap fun g => group longest g.1 g.2)

/-- Options as terms. -/
def options (flags : List Flag) : List (Text × Text) := flags.map fun f => (f.term, f.description)

end Help

/-- The name of the operand of commands that work on a file. -/
def operandName : Text := "file"

/-- A command as its usage shows it: with options, and with an operand if it has one. -/
def Name.synopsis (n : Name) : Text :=
  match n.operand with
  | some _ => Text.concat [n.toText, " [options] <", operandName, ">"]
  | none => Text.concat [n.toText, " [options]"]

/-- The help text of a command. -/
def Name.help (n : Name) : Text :=
  Help.page (Text.concat ["Usage: tally ", n.synopsis]) n.summary
    [("Arguments:", n.operand.toList.map fun description => (operandName, description)),
      ("Options:", Help.options (n.flags ++ [Flag.help]))]

/-- The word for the command that shows help. -/
def helpWord : Text := "help"

/-- The commands as terms, the one that shows help being the last. -/
def commandTerms : List (Text × Text) :=
  let own : Text × Text := (Text.concat [helpWord, " [command]"], "display help for command")
  Name.all.map (fun n => (n.synopsis, n.summary)) ++ [own]

/-- The help text of the program. -/
def help : Text :=
  Help.page "Usage: tally [options] [command]" "Tally: a stack-based bytecode virtual machine"
    [("Options:", Help.options [Flag.version, Flag.help]), ("Commands:", commandTerms)]

end Command

end StackMachine
