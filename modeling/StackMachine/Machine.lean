import StackMachine.Machine.Run
import StackMachine.Validation

/-!
# Machines

A machine is made from an untyped program and options, and refused if either is no good.
It runs once.  Afterwards its state can still be looked at, and so can the events of the
run if the machine was asked to keep them.
-/

namespace StackMachine

/-- The options with which a machine is made. -/
structure MachineOptions extends LimitOptions where
  runId : Text := "run"
  traced : Bool := false
deriving Repr

/-- A machine with its program, before or after its run. -/
structure Machine where
  code : Code
  limits : Limits
  runId : Text
  traced : Bool
  state : State
  started : Bool
  events : List Event
deriving Repr

/-- Why a machine cannot be run. -/
inductive RunError where
  | alreadyRun
deriving DecidableEq, Repr

/-- The message of a reason for which a machine cannot be run. -/
def RunError.message : RunError → Text
  | alreadyRun => "VirtualMachine.run() may only be called once per instance."

/-- How a run ended, and after how many steps. -/
structure RunResult where
  outcome : Outcome
  steps : Nat
deriving DecidableEq, Repr

/-- The code of a program, unless its structural check fails or finds something wrong. -/
def Code.ofData (data : List Datum) : Except ConstructionError Code :=
  match checkStructure data with
  | none => .error .noText
  | some [] => .ok (data.filterMap fun d => (Instruction.ofDatum d).toOption)
  | some diagnostics => .error (.malformed diagnostics)

namespace Machine

/-- The machine of code that is known to be good. -/
def ofCode (code : Code) (limits : Limits) (runId : Text) (traced : Bool) : Machine :=
  { code, limits, runId, traced, state := .initial, started := false, events := [] }

/-- The machine of an untyped program.  The program is looked at before the options. -/
def create (data : List Datum) (options : MachineOptions) : Except ConstructionError Machine := do
  let code ← Code.ofData data
  let limits ← Limits.ofOptions options.toLimitOptions
  return ofCode code limits options.runId options.traced

/-- The events of a run, the last one first, with one more. -/
def record (e : Event) : StateM (List Event) Unit := modify (e :: ·)

/-- The observer of a run that is not traced. -/
def ignore (_ : Event) : Id Unit := ()

/-- The run of a machine that has not run yet, followed for a number of steps, and the
events that it keeps. -/
def follow (fuel : Nat) (m : Machine) : Option Finished × List Event :=
  if m.traced then
    let (finished, events) := (runCode record m.limits m.code fuel).run []
    (finished, events.reverse)
  else (Id.run (runCode ignore m.limits m.code fuel), [])

/-- The run of a machine, followed for a number of steps: its result and the machine
afterwards, or nothing if it has not ended by then. -/
def run (fuel : Nat) (m : Machine) : Except RunError (Option (RunResult × Machine)) :=
  if m.started then .error .alreadyRun
  else match m.follow fuel with
    | (none, _) => .ok none
    | (some f, events) =>
      .ok (some (⟨f.outcome, f.state.steps⟩,
        { m with state := f.state, started := true, events }))

end Machine

end StackMachine
