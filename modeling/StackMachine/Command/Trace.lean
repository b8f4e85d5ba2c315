import StackMachine.Command.Outcome
import StackMachine.Environment
import StackMachine.Sorting.Runs
import StackMachine.Text.Collation
import StackMachine.Text.Utf8
import StackMachine.Trace.Summary

/-!
# Showing a trace

The command that summarizes the trace of a run.
-/

namespace StackMachine

namespace Command

open Trace

/-- Whether a count comes before another: the greater one does, and of equal ones that
whose opcode comes first in the alphabet.  Counts that are no numbers are equal to all. -/
def countPrecedes (a b : Text × Count) : Bool :=
  match a.2, b.2 with
  | .number n, .number k => k < n || (k == n && Text.alphabetical a.1 b.1)
  | _, _ => Text.alphabetical a.1 b.1

/-- The lines about opcodes. -/
def countLines (counts : Fields Count) : List Text :=
  match Sorting.sort countPrecedes counts with
  | [] => []
  | sorted =>
    let lines := sorted.map fun c => Text.concat ["    ", c.1, ": ", c.2.toText]
    "  Instructions:" :: lines

/-- The line about a fault. -/
def faultLine (f : FaultReport) : Text :=
  let index : Text := match f.index with
    | some i => Text.concat [" at instruction ", i.toText]
    | none => []
  Text.concat ["  Fault:         ", f.code, index, ": ", f.message]

/-- A summary in lines for a reader. -/
def summaryLines (s : Summary) : List Text :=
  let head : List Text := ["Trace Summary", Text.concat ["  Run ID:        ", s.runId],
    Text.concat ["  Total events:  ", Text.ofNat s.totalEvents]]
  let skipped : List Text :=
    if s.skippedLines = 0 then []
    else [Text.concat ["  Skipped lines: ", Text.ofNat s.skippedLines]]
  let steps : Text := Text.concat ["  Steps:         ", Text.ofNat s.steps]
  let outcome : Text := Text.concat ["  Outcome:       ", s.status.getD "incomplete"]
  let duration : Option Text :=
    s.duration?.map fun d => Text.concat ["  Duration:      ", d.toText, "ms"]
  head ++ skipped ++ [steps] ++ countLines s.instructionsByOpcode ++ [outcome]
    ++ (s.fault.map faultLine).toList ++ duration.toList

/-- The outcome of showing what was read from a file. -/
def traceBytes (json : Bool) (bytes : Except FileFailure Bytes) : Outcome :=
  match bytes with
  | .error failure =>
    .failure Outcome.failed (Text.concat ["Error reading trace file: ", failure.message])
  | .ok bytes =>
    match Trace.summarize (Utf8.decode bytes.toList) with
    | none => .failure Outcome.failed "No valid trace events found."
    | some s => .success (if json then s.toJson.pretty else Text.join "\n" (summaryLines s))

/-- Shows the trace in a file. -/
def trace {m : Type → Type} [Monad m] [Environment m] (file : Text) (json : Bool) :
    m Outcome := do
  return traceBytes json (← Environment.read file)

end Command

end StackMachine
