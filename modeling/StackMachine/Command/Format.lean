import StackMachine.Assembly.Listing
import StackMachine.Command.Loading

/-!
# Formatting a file

The command that writes the canonical listing of a program, to the output or back to the
file.  A JSON program is never overwritten with assembly.
-/

namespace StackMachine

namespace Command

/-- The warning about comments, where the text of an assembly file may hold some. -/
def commentWarning (source file : Text) : Text :=
  if !ProgramFile.isJson file && source.contains 0x23 then
    Outcome.line "warning: formatting will remove comments from the output."
  else []

/-- The listing of a program and the warnings about it, from what was read from a file. -/
def formatted (file : Text) (write : Bool) (bytes : Except FileFailure Bytes) :
    Except Outcome (Text × Text) := do
  let source ← sourceText true bytes
  let program ← loadProgram true source file
  if write && ProgramFile.isJson file then
    .error (problem true Outcome.failed "E_IO"
      "Refusing to overwrite a JSON program with assembly.")
  else .ok (program.listing, commentWarning source file)

section

variable {m : Type → Type} [Monad m] [Environment m]

/-- Replaces what is in a file. -/
def overwrite (file contents : Text) : m (Except FileFailure Unit) := do
  match ← Environment.openNew file with
  | .error failure => return .error failure
  | .ok write => write (Utf8.encode contents).toArray

/-- Formats a file, to the output or in place. -/
def format (file : Text) (write : Bool) : m Outcome := do
  match formatted file write (← Environment.read file) with
  | .error outcome => return outcome
  | .ok (listing, warning) =>
    if write then
      match ← overwrite file listing with
      | .ok () => return { code := 0, stderr := warning }
      | .error failure =>
        let problem := fileProblem true "Error writing file" failure
        return { problem with stderr := warning ++ problem.stderr }
    else return { code := 0, stdout := listing, stderr := warning }

end

end Command

end StackMachine
