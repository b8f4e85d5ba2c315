import StackMachine.Machine.Run
import StackMachine.Timestamp
import StackMachine.Word.Json

/-!
# Trace events

An event of a run is written as a line of JSON: when it came, the run it belongs to, its
name and its data.  The clock that gives the times is read once for each event.
-/

namespace StackMachine

namespace Event

/-- The name of an event. -/
def name : Event → Text
  | runStart _ => "run_start"
  | step .. => "step"
  | runEnd .. => "run_end"

/-- What an event tells beside its name. -/
def data : Event → Json
  | runStart instructions => .object [("instructions", .ofNat instructions)]
  | step pc instruction stack memory =>
    .object [("pc", .ofNat pc), ("instr", .string (instruction.map Number.ofNat).toText),
      ("stack", Word.listToJson stack.reverse), ("memory", Word.listToJson memory.toList)]
  | runEnd .halted steps =>
    .object [("status", .string "halted"), ("steps", .ofNat steps)]
  | runEnd (.faulted fault index) steps =>
    .object [("status", .string "faulted"), ("steps", .ofNat steps), ("at", .ofNat index),
      ("error", .string fault.code.toText), ("message", .string fault.message)]

/-- An event of a run at a time, as JSON. -/
def toJson (time : Int) (runId : Text) (e : Event) : Json :=
  .object [("ts", .string (Timestamp.toText time)), ("runId", .string runId),
    ("event", .string e.name), ("data", e.data)]

/-- An event of a run at a time, as a line of its trace. -/
def line (time : Int) (runId : Text) (e : Event) : Text :=
  (e.toJson time runId).compact ++ [Text.lineFeed]

/-- The lines of events, the first of which comes at a time and each other a millisecond
after the one before. -/
def lines (time : Int) (runId : Text) : List Event → Text
  | [] => []
  | e :: r => e.line time runId ++ lines (time + 1) runId r

end Event

end StackMachine
