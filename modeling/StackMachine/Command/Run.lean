import StackMachine.Command.Loading
import StackMachine.Machine
import StackMachine.Trace.Event

/-!
# Running a file

The command that runs a program.  The program and the configuration are looked at first;
only then is the file for the trace made empty, and the events of the run are written to
it as they come.
-/

namespace StackMachine

namespace Command

/-- The state of a machine that has halted, as output. -/
def finalState (s : State) : Json :=
  .object [("status", .string "halted"), ("steps", .ofNat s.steps),
    ("stack", Word.listToJson s.stack.reverse), ("memory", Word.listToJson s.memory.toList),
    ("heap", Word.listToJson s.heap.toList)]

/-- The outcome of a run that has ended. -/
def finished (pretty : Bool) (f : Finished) : Outcome :=
  match f.outcome with
  | .halted => .success (finalState f.state).pretty
  | .faulted fault index =>
    .failure Outcome.failed (Diagnostic.render pretty
      { code := fault.code.toText, message := fault.message
        index := some (.ofNat index) })

/-- The options of a machine: the limit on steps that is asked for comes before that of the
configuration. -/
def limitOptions (maxSteps : Option Number) (config : Config) : LimitOptions :=
  ({ config with maxSteps := maxSteps <|> config.maxSteps } : Config).toOptions

/-- The machine for a program. -/
def machine (pretty : Bool) (program : Program) (limits : LimitOptions) (runId : Text) :
    Except Outcome Machine :=
  (Machine.create program.toData { toLimitOptions := limits, runId }).mapError fun e =>
    problem pretty Outcome.failed "E_RUNTIME" e.message

/-- The text of a program is read from the input if the file is `-`. -/
def inputName : Text := "-"

section

variable {m : Type → Type} [Monad m] [Environment m]

/-- What is read for a file. -/
def readSource (file : Text) : m (Except FileFailure Bytes) :=
  if file = inputName then Environment.input else Environment.read file

/-- How the lines of a trace are written. -/
abbrev Writer (m : Type → Type) := Bytes → m (Except FileFailure Unit)

/-- The writer for the trace; the empty path stands for no trace. -/
def openTrace (pretty : Bool) (path : Option Text) : ExceptT Outcome m (Option (Writer m)) := do
  match path.filter (· ≠ []) with
  | none => return none
  | some path =>
    match ← Environment.openNew (m := m) path with
    | .ok write => return some write
    | .error failure => throw (fileProblem pretty "Error opening trace file" failure)

/-- Writes an event of a run to its trace. -/
def writeEvent (pretty : Bool) (runId : Text) (trace : Option (Writer m)) (e : Event) :
    ExceptT Outcome m Unit := do
  match trace with
  | none => return ()
  | some write =>
    let time ← Environment.now (m := m)
    match ← write (Utf8.encode (e.line time runId)).toArray with
    | .ok () => return ()
    | .error failure => throw (fileProblem pretty "Error writing trace file" failure)

/-- Runs a file, following the run for a number of steps; nothing if it has not ended by
then. -/
def runFile (fuel : Nat) (file : Text) (trace : Option Text) (maxSteps : Option Number)
    (pretty : Bool) : ExceptT Outcome m (Option Outcome) := do
  let source ← ExceptT.mk (sourceText pretty <$> readSource file)
  let program ← ExceptT.mk (pure (loadValidated pretty source file))
  let (config, _) ← ExceptT.mk (resolveConfig pretty)
  let writer ← openTrace pretty trace
  let runId ← Environment.runId (m := m)
  let machine ← ExceptT.mk (pure (machine pretty program (limitOptions maxSteps config) runId))
  let result ← runCode (writeEvent pretty runId writer) machine.limits machine.code fuel
  return result.map (finished pretty)

/-- Runs a file. -/
def run (fuel : Nat) (file : Text) (trace : Option Text) (maxSteps : Option Number)
    (pretty : Bool) : m (Option Outcome) := do
  match ← (runFile fuel file trace maxSteps pretty).run with
  | .ok outcome => return outcome
  | .error outcome => return some outcome

end

end Command

end StackMachine
