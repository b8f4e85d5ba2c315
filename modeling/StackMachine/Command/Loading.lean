import StackMachine.Command.Outcome
import StackMachine.Config
import StackMachine.Environment
import StackMachine.ProgramFile
import StackMachine.Text.Utf8
import StackMachine.Validation

/-!
# Loading

How commands get hold of programs and of the configuration.  Whatever goes wrong becomes
the outcome of the command.
-/

namespace StackMachine

namespace Command

/-! ### Refusals -/

/-- The outcome of a failure that has a code and a message. -/
def problem (pretty : Bool) (exit : Nat) (code message : Text) : Outcome :=
  .failure exit (Diagnostic.render pretty { code, message })

/-- The outcome of a failure of the system; `doing` tells what was tried. -/
def fileProblem (pretty : Bool) (doing : Text) (failure : FileFailure) : Outcome :=
  problem pretty Outcome.failed "E_IO" (Text.concat [doing, ": ", failure.message])

/-- The outcome of a program that is refused. -/
def refusal (pretty : Bool) (diagnostics : List Diagnostic) : Outcome :=
  .failure Outcome.refused (Diagnostic.renderAll pretty diagnostics)

/-! ### Programs -/

/-- The program of the text of a file. -/
def loadProgram (pretty : Bool) (source file : Text) : Except Outcome Program :=
  (Program.ofFile source file).mapError (refusal pretty)

/-- A program in which validation finds nothing wrong. -/
def validated (pretty : Bool) (program : Program) : Except Outcome Program :=
  match validate program.toData with
  | .ok [] => .ok program
  | .ok diagnostics => .error (refusal pretty diagnostics)
  | .error _ => .error (refusal pretty [])

/-- The program of the text of a file, in which validation finds nothing wrong. -/
def loadValidated (pretty : Bool) (source file : Text) : Except Outcome Program := do
  validated pretty (← loadProgram pretty source file)

/-- The text of what was read from a file. -/
def sourceText (pretty : Bool) (bytes : Except FileFailure Bytes) : Except Outcome Text :=
  match bytes with
  | .ok bytes => .ok (Utf8.decode bytes.toList)
  | .error failure => .error (fileProblem pretty "Error reading file" failure)

/-! ### Configuration -/

/-- Where a configuration comes from: a file of the project or of the user, with its path,
or the defaults. -/
inductive Origin where
  | project (path : Text)
  | user (path : Text)
  | defaults
deriving DecidableEq, Repr

/-- The word for an origin. -/
def Origin.toText : Origin → Text
  | project _ => "project"
  | user _ => "user"
  | defaults => "default"

/-- The path of an origin that is a file. -/
def Origin.path? : Origin → Option Text
  | project path => some path
  | user path => some path
  | defaults => none

/-- Why a file cannot serve as a configuration. -/
inductive ConfigFailure where
  | unreadable (failure : FileFailure)
  | notJson
  | flawed (flaws : List ConfigFlaw)
deriving DecidableEq, Repr

/-- The text that tells why a file cannot serve as a configuration. -/
def ConfigFailure.reason : ConfigFailure → Text
  | unreadable failure => failure.message
  | notJson => ProgramFile.notJsonMessage
  | flawed flaws => Text.join "; " (flaws.map ConfigFlaw.toText)

/-- The outcome of a file that cannot serve as a configuration. -/
def ConfigFailure.outcome (pretty : Bool) (path : Text) (failure : ConfigFailure) : Outcome :=
  problem pretty Outcome.refused "E_CONFIG"
    (Text.concat ["Invalid configuration in ", path, ": ", failure.reason])

/-- The configuration of a text. -/
def readConfig (t : Text) : Except ConfigFailure Config :=
  match Json.parse? t with
  | none => .error .notJson
  | some v => ((Settings.ofDatum (.ofJson v)).map Config.ofSettings).mapError .flawed

/-- The path of a file in a directory. -/
def pathIn (directory name : Text) : Text :=
  if directory.getLast? = some Store.separator then directory ++ name
  else directory ++ Store.separator :: name

section

variable {m : Type → Type} [Monad m] [Environment m]

/-- The configuration in the file at a path, if there is one. -/
def configAt (pretty : Bool) (path : Text) : m (Except Outcome (Option Config)) := do
  if ← Environment.fileExists path then
    match ← Environment.read path with
    | .error failure => return .error ((ConfigFailure.unreadable failure).outcome pretty path)
    | .ok bytes =>
      match readConfig (Utf8.decode bytes.toList) with
      | .ok config => return .ok (some config)
      | .error failure => return .error (failure.outcome pretty path)
  else return .ok none

/-- The configuration that is in force, and its origin: the file of the project comes
before that of the user, and both before the defaults. -/
def resolveConfig (pretty : Bool) : m (Except Outcome (Config × Origin)) := do
  let projectPath := pathIn (← Environment.workDirectory) ".tallyrc.json"
  let userPath := pathIn (← Environment.homeDirectory) ".tally/config.json"
  match ← configAt pretty projectPath with
  | .error outcome => return .error outcome
  | .ok (some config) => return .ok (config, .project projectPath)
  | .ok none =>
    match ← configAt pretty userPath with
    | .error outcome => return .error outcome
    | .ok (some config) => return .ok (config, .user userPath)
    | .ok none => return .ok (Config.default, .defaults)

end

end Command

end StackMachine
