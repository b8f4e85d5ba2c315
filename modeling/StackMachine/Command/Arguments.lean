import StackMachine.Command.Outcome
import StackMachine.Command.Usage
import StackMachine.Number.Literal
import StackMachine.Text.Similarity

/-!
# Arguments

The arguments of the program are read twice: for the program, which knows only the option
that shows the version, and for the command that they name.  An option that is not known
is left, with everything after it, to the command.  What cannot be understood is answered
at once, and so are requests for help.
-/

namespace StackMachine

namespace Command

/-- What the program is asked to do. -/
inductive Request where
  | check (file : Text) (pretty : Bool)
  | run (file : Text) (trace : Option Text) (maxSteps : Option Number) (pretty : Bool)
  | format (file : Text) (write : Bool)
  | trace (file : Text) (json : Bool)
  | config (json : Bool)
deriving DecidableEq, Repr

/-! ### Reading arguments one by one -/

/-- What an argument is. -/
inductive Argument where
  | operand (t : Text)
  | flag (f : Flag)
  | setting (f : Flag) (value : Text)
  /-- An option whose value does not follow. -/
  | bare (f : Flag)
  /-- An option that is not known, or what comes after one. -/
  | unknown (t : Text)
deriving DecidableEq, Repr

/-- The mark of options. -/
def dash : CodeUnit := CodeUnit.ofChar '-'

/-- The argument after which there are no options. -/
def terminator : Text := "--"

/-- Whether an argument is written as options are. -/
def isOption : Text → Bool
  | u :: _ :: _ => u == dash
  | _ => false

/-- The known option of a name. -/
def findFlag? (known : List Flag) (t : Text) : Option Flag :=
  known.find? fun f => f.long = t ∨ f.short = some t

/-- The known option without a value whose letter begins a group of letters after one
dash. -/
def findGroup? (known : List Flag) (t : Text) : Option Flag :=
  match t with
  | u :: v :: _ :: _ =>
    if u = dash ∧ v ≠ dash then (findFlag? known [u, v]).filter fun f => f.value.isNone else none
  | _ => none

/-- The mark between an option and its value. -/
def equals : CodeUnit := CodeUnit.ofChar '='

/-- The known option that is written in one argument with its value. -/
def findSetting? (known : List Flag) (t : Text) : Option (Flag × Text) :=
  match t.dropWhile (· ≠ equals) with
  | [] => none
  | _ :: value =>
    match findFlag? known (t.takeWhile (· ≠ equals)) with
    | some f => if f.value.isSome then some (f, value) else none
    | none => none

/-- An argument that is no option that is known. -/
def Argument.ofText (strange : Bool) (t : Text) : Argument :=
  if strange then unknown t else operand t

/-- A known option as it is written in one argument, where a value may still be wanted.  Of
a group of letters only the first is looked at, which is enough for an option that is acted
on at once. -/
def findWritten? (known : List Flag) (t : Text) : Option (Flag × Option Text) :=
  match findFlag? known t, findGroup? known t, findSetting? known t with
  | some f, _, _ => some (f, none)
  | none, some f, _ => some (f, none)
  | none, none, some (f, value) => some (f, some value)
  | none, none, none => none

/-- The arguments where some options are known.  `strange` tells whether an option that is
not known came before, and `wanting` is an option whose value has to come next. -/
def scan (known : List Flag) : Bool → Option Flag → List Text → List Argument
  | _, none, [] => []
  | _, some f, [] => [.bare f]
  | strange, some f, value :: r => .setting f value :: scan known strange none r
  | strange, none, t :: r =>
    if t = terminator then
      (if strange then [.unknown t] else []) ++ r.map (.ofText strange)
    else match findWritten? known t with
      | some (f, some value) => .setting f value :: scan known strange none r
      | some (f, none) =>
        if f.value.isSome then scan known strange (some f) r
        else .flag f :: scan known strange none r
      | none =>
        let strange := strange || isOption t
        .ofText strange t :: scan known strange none r

/-- The operands among arguments. -/
def operands (arguments : List Argument) : List Text :=
  arguments.filterMap fun
    | .operand t => some t
    | _ => none

/-- What is not known among arguments. -/
def unknowns (arguments : List Argument) : List Text :=
  arguments.filterMap fun
    | .unknown t => some t
    | _ => none

/-! ### Answers -/

/-- The answer to arguments that cannot be understood. -/
def misuse (reason : Text) : Outcome := .failure Outcome.misused reason

/-- The line that suggests known words near to one that is not known.  If that is written
with two dashes it is compared without them, and the known words without as many units. -/
def suggest (t : Text) (known : List Text) : Text :=
  if terminator.isPrefixOf t then
    let near := Text.nearest (t.drop terminator.length) (known.map (·.drop terminator.length))
    Text.suggestion (near.map (terminator ++ ·))
  else Text.suggestion (Text.nearest t known)

/-- The answer to an option that is not known; long options near to it are suggested. -/
def unknownOption (known : List Flag) (t : Text) : Outcome :=
  let names := (known ++ [Flag.help, Flag.version]).map Flag.long
  misuse (Text.concat ["error: unknown option '", t, "'",
    if terminator.isPrefixOf t then suggest t names else []])

/-- The words for all commands. -/
def words : List Text := Name.all.map Name.toText ++ [helpWord]

/-- The answer to a command that is not known; commands near to it are suggested. -/
def unknownCommand (t : Text) : Outcome :=
  misuse (Text.concat ["error: unknown command '", t, "'", suggest t words])

/-- Whether help is asked for. -/
def asksHelp (arguments : List Text) : Bool := (arguments.findSome? (findFlag? [Flag.help])).isSome

/-! ### The arguments of a command -/

/-- The limit on steps that a text denotes: a positive integer up to `Number.maxSafe`. -/
def stepLimit? (t : Text) : Option Number :=
  ((Number.ofText t).toSafeInt?.filter (0 < ·)).map .int

/-- The first mistake in the values of options. -/
def badValue? (arguments : List Argument) : Option Outcome :=
  arguments.findSome? fun
    | .bare f => some (misuse (Text.concat ["error: option '", f.usage, "' argument missing"]))
    | .setting f value =>
      if f = Flag.maxSteps ∧ stepLimit? value = none then
        some (misuse (Text.concat ["error: option '", f.usage, "' argument '", value,
          "' is invalid. Expected a positive integer."]))
      else none
    | _ => none

/-- Whether an option is given. -/
def given (f : Flag) (arguments : List Argument) : Bool := arguments.contains (.flag f)

/-- The value of an option; the last one counts. -/
def valueOf? (f : Flag) (arguments : List Argument) : Option Text :=
  arguments.reverse.findSome? fun
    | .setting g value => if g = f then some value else none
    | _ => none

/-- What a command is asked to do on a file. -/
def Name.request (n : Name) (file : Text) (arguments : List Argument) : Request :=
  match n with
  | check => .check file (given Flag.prettyOutput arguments)
  | run =>
    .run file (valueOf? Flag.trace arguments)
      ((valueOf? Flag.maxSteps arguments).bind stepLimit?) (given Flag.prettyErrors arguments)
  | format => .format file (given Flag.write arguments)
  | trace => .trace file (given Flag.json arguments)
  | config => .config (given Flag.json arguments)

/-- What a command is asked to do, where some operands are known and the other arguments are
still to be read.  Mistakes in values come before a request for help, which comes before
options that are not known and a missing operand; operands that are not needed do not
matter. -/
def Name.parse (n : Name) (known : List Text) (rest : List Text) : Except Outcome Request :=
  let arguments := scan n.flags false none rest
  match badValue? arguments, unknowns arguments, known ++ operands arguments with
  | some answer, _, _ => .error answer
  | none, strange, files =>
    if asksHelp strange then .error (.success n.help)
    else match strange, files with
      | t :: _, _ => .error (unknownOption n.flags t)
      | [], file :: _ => .ok (n.request file arguments)
      | [], [] =>
        if n.operand.isSome then
          .error (misuse (Text.concat ["error: missing required argument '", operandName, "'"]))
        else .ok (n.request [] arguments)

/-! ### The arguments of the program -/

/-- The version of the program. -/
def versionText : Text := "0.1.0"

/-- The command of a word. -/
def Name.ofText? (t : Text) : Option Name := all.find? fun n => n.toText = t

/-- The answer to a request for help by its own command. -/
def helpOn : List Text → Outcome
  | [] => .success help
  | t :: _ =>
    if t = [] then .success help
    else match Name.ofText? t with
      | some n => .success n.help
      | none => misuse help

/-- What the program is asked to do, given its operands and what it does not know. -/
def dispatch (files strange : List Text) : Except Outcome Request :=
  match files with
  | [] =>
    match strange with
    | [] => .error (misuse help)
    | t :: _ => .error (if asksHelp strange then .success help else unknownOption [] t)
  | t :: r =>
    match Name.ofText? t with
    | some n => n.parse r strange
    | none =>
      .error (if t = helpWord then helpOn r
        else if asksHelp strange then .success help
        else unknownCommand t)

/-- The first argument that is not written with a dash. -/
def firstWord? (arguments : List Text) : Option Text :=
  arguments.find? fun t => t.head? ≠ some dash

/-- What the program is asked to do.  A first word that is no command is refused before
anything else. -/
def parse (arguments : List Text) : Except Outcome Request :=
  match (firstWord? arguments).filter fun t => !t.isEmpty && !words.contains t with
  | some t => .error (misuse (Text.concat ["Unknown command: ", t]))
  | none =>
    let items := scan [Flag.version] false none arguments
    if given Flag.version items then .error (.success versionText)
    else dispatch (operands items) (unknowns items)

end Command

end StackMachine
