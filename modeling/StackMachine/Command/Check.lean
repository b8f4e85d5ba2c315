import StackMachine.Command.Loading

/-!
# Checking a file

The command that loads a program and validates it, and does nothing else.
-/

namespace StackMachine

namespace Command

/-- The outcome for a program in which nothing is wrong. -/
def checked (pretty : Bool) (program : Program) : Outcome :=
  if pretty then
    .success (Text.concat ["No errors found (", Text.ofNat program.length, " instructions)."])
  else .success "[]"

/-- The outcome of checking what was read from a file. -/
def checkBytes (pretty : Bool) (file : Text) (bytes : Except FileFailure Bytes) : Outcome :=
  let program := do
    loadValidated pretty (← sourceText pretty bytes) file
  match program with
  | .ok program => checked pretty program
  | .error outcome => outcome

/-- Checks a file. -/
def check {m : Type → Type} [Monad m] [Environment m] (file : Text) (pretty : Bool) :
    m Outcome := do
  return checkBytes pretty file (← Environment.read file)

end Command

end StackMachine
