import StackMachine.Json.Reader
import StackMachine.Json.Writer
import StackMachine.Timestamp

/-!
# Summaries of traces

A trace is read line by line.  Lines of blanks do not count; the others are events or are
skipped.  The summary of the events tells the run of the first, how many steps there were
and of which opcodes, and how and when the last run ended.
-/

namespace StackMachine

namespace Trace

/-- A line of a trace that is an event. -/
structure Entry where
  ts : Text
  runId : Text
  event : Text
  data : Option (Fields Json)
deriving Repr

/-- The event that a JSON value is: an object with the texts `ts`, `runId` and `event`,
and with data, if any, that are an object. -/
def Entry.ofJson? (v : Json) : Option Entry := do
  let ts ← (← v.field? "ts").string?
  let runId ← (← v.field? "runId").string?
  let event ← (← v.field? "event").string?
  match v.field? "data" with
  | none => some ⟨ts, runId, event, none⟩
  | some (.object fields) => some ⟨ts, runId, event, some fields⟩
  | some _ => none

/-- The event of a line. -/
def Entry.ofLine? (line : Text) : Option Entry := (Json.parse? line).bind ofJson?

/-- A value among the data of an event. -/
def Entry.datum? (e : Entry) (key : Text) : Option Json := e.data.bind fun d => d.get? key

/-- The opcode of a step: the text of its instruction up to the first blank. -/
def Entry.opcode (e : Entry) : Text :=
  match e.datum? "instr" with
  | some (.string t) => t.takeWhile (· ≠ 0x20)
  | _ => "unknown"

/-! ### Counting opcodes -/

/-- How often an opcode came: a number, or a text to which a `1` is added each time. -/
inductive Count where
  | number (n : Nat)
  | text (t : Text)
deriving DecidableEq, Repr

/-- The count after one more. -/
def Count.succ : Count → Count
  | number n => number (n + 1)
  | text t => text (t ++ [CodeUnit.ofChar '1'])

/-- A count as JSON. -/
def Count.toJson : Count → Json
  | number n => .ofNat n
  | text t => .string t

/-- A count as text. -/
def Count.toText : Count → Text
  | number n => Text.ofNat n
  | text t => t

/-- The names that every table of counts has from the beginning, with what they stand for
there. -/
def builtin : List (Text × Text) :=
  [("constructor", "Object"), ("hasOwnProperty", "hasOwnProperty"),
    ("isPrototypeOf", "isPrototypeOf"), ("propertyIsEnumerable", "propertyIsEnumerable"),
    ("toLocaleString", "toLocaleString"), ("toString", "toString"), ("valueOf", "valueOf"),
    ("__defineGetter__", "__defineGetter__"), ("__defineSetter__", "__defineSetter__"),
    ("__lookupGetter__", "__lookupGetter__"), ("__lookupSetter__", "__lookupSetter__")]

/-- The count before an opcode came first: 0, but for the built-in names, which begin
with the text of what they stand for. -/
def Count.start (opcode : Text) : Count :=
  match builtin.lookup opcode with
  | some name => text (Text.concat ["function ", name, "() \x7b [native code] \x7d"])
  | none => number 0

/-- The counts with one more of an opcode.  The name `__proto__` is never counted. -/
def countOpcode (counts : Fields Count) (opcode : Text) : Fields Count :=
  if opcode = Text.ofString "__proto__" then counts
  else counts.insert opcode ((counts.get? opcode).getD (.start opcode)).succ

/-! ### The summary -/

/-- The fault by which a run ended. -/
structure FaultReport where
  code : Text
  message : Text
  index : Option Number
deriving DecidableEq, Repr

/-- The parts of a summary that not every trace has. -/
inductive Detail where
  | startTime | endTime | status | fault
deriving DecidableEq, Repr

/-- What a trace tells.  The details are listed in the order in which they came to be
known. -/
structure Summary where
  runId : Text
  totalEvents : Nat
  skippedLines : Nat
  steps : Nat := 0
  instructionsByOpcode : Fields Count := []
  startTime : Option Text := none
  endTime : Option Text := none
  status : Option Text := none
  fault : Option FaultReport := none
  details : List Detail := []
deriving Repr

namespace Summary

/-- The summary with a detail that is known now, if it was not before. -/
def know (s : Summary) (d : Detail) : Summary :=
  if d ∈ s.details then s else { s with details := s.details ++ [d] }

/-- The summary after the beginning of a run. -/
def addStart (s : Summary) (e : Entry) : Summary :=
  { s.know .startTime with startTime := some e.ts }

/-- The summary after a step. -/
def addStep (s : Summary) (e : Entry) : Summary :=
  { s with
    steps := s.steps + 1
    instructionsByOpcode := countOpcode s.instructionsByOpcode e.opcode }

/-- The summary with the status that the end of a run tells, if it tells one. -/
def addStatus (s : Summary) (e : Entry) : Summary :=
  match e.datum? "status" with
  | some (.string status) => { s.know .status with status := some status }
  | _ => s

/-- The summary with the fault that the end of a run tells, if it tells one. -/
def addFault (s : Summary) (e : Entry) : Summary :=
  match e.datum? "error" with
  | some (.string code) =>
    let message := ((e.datum? "message").bind Json.string?).getD []
    let index := (e.datum? "at").bind Json.number?
    { s.know .fault with fault := some { code, message, index } }
  | _ => s

/-- The summary after the end of a run. -/
def addEnd (s : Summary) (e : Entry) : Summary :=
  (addStatus { s.know .endTime with endTime := some e.ts } e).addFault e

/-- The summary after an event; events of other names are only counted. -/
def add (s : Summary) (e : Entry) : Summary :=
  if e.event = Text.ofString "run_start" then s.addStart e
  else if e.event = Text.ofString "step" then s.addStep e
  else if e.event = Text.ofString "run_end" then s.addEnd e
  else s

/-- The milliseconds from the start to the end, where both are known and not empty; not a
number if one of them is no timestamp. -/
def duration? (s : Summary) : Option Number :=
  match s.startTime, s.endTime with
  | some a, some b =>
    if a = [] ∨ b = [] then none
    else match Timestamp.parse? a, Timestamp.parse? b with
      | some t, some u => some (.int (u - t))
      | _, _ => some .nan
  | _, _ => none

/-- A fault as JSON. -/
def faultJson (f : FaultReport) : Json :=
  .object [("code", .string f.code), ("message", .string f.message),
    ("at", (f.index.map Json.number).getD .null)]

/-- A detail as a field of JSON. -/
def detailField (s : Summary) : Detail → Text × Option Json
  | .startTime => ("startTime", s.startTime.map .string)
  | .endTime => ("endTime", s.endTime.map .string)
  | .status => ("status", s.status.map .string)
  | .fault => ("fault", s.fault.map faultJson)

/-- A summary as JSON. -/
def toJson (s : Summary) : Json :=
  let counts : Fields Json := s.instructionsByOpcode.map fun f => (f.1, f.2.toJson)
  let before : List (Text × Option Json) :=
    [("runId", some (.string s.runId)), ("totalEvents", some (.ofNat s.totalEvents)),
      ("skippedLines", some (.ofNat s.skippedLines)), ("steps", some (.ofNat s.steps)),
      ("instructionsByOpcode", some (.object counts))]
  let after : List (Text × Option Json) := [("durationMs", s.duration?.map Json.number)]
  .record (before ++ s.details.map s.detailField ++ after)

end Summary

/-- The lines of a trace that are not blank. -/
def contentLines (content : Text) : List Text :=
  (List.splitOn Text.lineFeed content).filter fun line => line.trim ≠ []

/-- The summary of a trace; `none` if it has no events. -/
def summarize (content : Text) : Option Summary :=
  let read := (contentLines content).map Entry.ofLine?
  let entries := read.filterMap id
  match entries with
  | [] => none
  | e :: _ =>
    let start : Summary :=
      { runId := e.runId, totalEvents := entries.length
        skippedLines := read.length - entries.length }
    some (entries.foldl Summary.add start)

end Trace

end StackMachine
