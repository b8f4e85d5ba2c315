import StackMachine.Text

/-!
# Outcomes of commands

What a command leaves behind besides files: an exit code and what it prints on the two
output streams.
-/

namespace StackMachine

namespace Command

/-- The exit code and the output of a command. -/
structure Outcome where
  code : Nat
  stdout : Text := []
  stderr : Text := []
deriving DecidableEq, Repr

namespace Outcome

/-- A text as a line. -/
def line (t : Text) : Text := t ++ [Text.lineFeed]

/-- Success, with a line of output. -/
def success (output : Text) : Outcome := { code := 0, stdout := line output }

/-- Failure with a code, and a line that tells why. -/
def failure (code : Nat) (reason : Text) : Outcome := { code, stderr := line reason }

/-- The code for input that is refused. -/
def refused : Nat := 2

/-- The code for files that cannot be used and runs that fault. -/
def failed : Nat := 4

/-- The code for arguments that cannot be understood. -/
def misused : Nat := 1

end Outcome

end Command

end StackMachine
