import StackMachine.Command.Arguments
import StackMachine.Command.Check
import StackMachine.Command.Config
import StackMachine.Command.Format
import StackMachine.Command.Run
import StackMachine.Command.Trace

/-!
# Performing commands

The program as a whole: its arguments are read, and what they ask for is done in an
environment.
-/

namespace StackMachine

namespace Command

variable {m : Type → Type} [Monad m] [Environment m]

/-- Does what is asked for; a run is followed for a number of steps. -/
def perform (fuel : Nat) : Request → m (Option Outcome)
  | .check file pretty => some <$> check file pretty
  | .run file trace maxSteps pretty => run fuel file trace maxSteps pretty
  | .format file write => some <$> format file write
  | .trace file json => some <$> trace file json
  | .config json => some <$> config json

/-- The outcome of the program for its arguments. -/
def execute (fuel : Nat) (arguments : List Text) : m (Option Outcome) :=
  match parse arguments with
  | .ok request => perform fuel request
  | .error outcome => return some outcome

end Command

end StackMachine
