import StackMachine.Diagnostic

/-!
# Refusals

Why a machine cannot be made: the program is malformed, or an option is no limit.  Either is
told in a message; where that would show a value without a text, the machine cannot be made
either.
-/

namespace StackMachine

/-- An option that is no limit, with the text by which it is shown. -/
inductive LimitError where
  | maxSteps (shown : Text)
  | memoryLimit (shown : Text)
  | heapLimit (shown : Text)
deriving DecidableEq, Repr

/-- The message of an option that is no limit. -/
def LimitError.message : LimitError → Text
  | maxSteps shown => Text.concat ["maxSteps must be a positive integer, got ", shown, "."]
  | memoryLimit shown =>
    Text.concat ["memoryLimit must be a non-negative integer or Infinity, got ", shown, "."]
  | heapLimit shown =>
    Text.concat ["heapLimit must be a non-negative integer or Infinity, got ", shown, "."]

/-- Why a machine cannot be made. -/
inductive ConstructionError where
  | malformed (diagnostics : List Diagnostic)
  | limit (error : LimitError)
  /-- A message is to show a value that has no text. -/
  | noText
deriving Repr

/-- The message of a malformed program: that of the first thing that is wrong with it. -/
def malformedMessage : List Diagnostic → Text
  | [] => "Malformed program."
  | d :: _ => Text.concat ["Malformed program: ", d.message]

/-- The message of a reason for which a machine cannot be made. -/
def ConstructionError.message : ConstructionError → Text
  | malformed diagnostics => malformedMessage diagnostics
  | limit error => error.message
  | noText => "Cannot convert object to primitive value"

end StackMachine
