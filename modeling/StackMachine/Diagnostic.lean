import StackMachine.Json.Writer

/-!
# Diagnostics

A diagnostic tells what is wrong with a text or a program: a code, a message, and where it
is known the stretch of text or the instruction it is about, and a hint.  It is written
either as JSON or in a few lines for a reader.
-/

namespace StackMachine

/-- A stretch of a file, from a line and column to a line and column; the end is not part
of it.  Whoever builds a program may give any numbers for them. -/
structure Span where
  file : Text
  startLine : Number
  startCol : Number
  endLine : Number
  endCol : Number
deriving DecidableEq, Repr

/-- What is wrong, and where.  The index is that of an instruction of a program. -/
structure Diagnostic where
  code : Text
  message : Text
  span : Option Span := none
  index : Option Number := none
  hint : Option Text := none
deriving DecidableEq, Repr

/-- A stretch of a file as JSON. -/
def Span.toJson (s : Span) : Json :=
  .object [("file", .string s.file), ("startLine", .number s.startLine),
    ("startCol", .number s.startCol), ("endLine", .number s.endLine),
    ("endCol", .number s.endCol)]

namespace Diagnostic

/-- A diagnostic as JSON, without the fields that it lacks. -/
def toJson (d : Diagnostic) : Json :=
  .record [("code", some (.string d.code)), ("message", some (.string d.message)),
    ("span", d.span.map Span.toJson), ("at", d.index.map Json.number),
    ("hint", d.hint.map Json.string)]

/-- Where a diagnostic points to. -/
def location (d : Diagnostic) : Text :=
  match d.span, d.index with
  | some s, _ =>
    Text.concat [s.file, ":", s.startLine.toText, ":", s.startCol.toText]
  | none, some i => Text.concat ["instruction ", i.toText]
  | none, none => "<unknown>"

/-- A diagnostic in lines for a reader; an empty hint is left out. -/
def lines (d : Diagnostic) : Text :=
  let hint : Text := match d.hint with
    | some h => if h = [] then [] else Text.concat ["\n  hint: ", h]
    | none => []
  Text.concat ["error[", d.code, "]: ", d.message, "\n  --> ", d.location, hint]

/-- A diagnostic, for a reader or as JSON. -/
def render (pretty : Bool) (d : Diagnostic) : Text :=
  if pretty then d.lines else d.toJson.compact

/-- A list of diagnostics, for a reader or as JSON. -/
def renderAll (pretty : Bool) (ds : List Diagnostic) : Text :=
  if pretty then Text.join "\n\n" (ds.map lines) else (Json.array (ds.map toJson)).compact

end Diagnostic

end StackMachine
