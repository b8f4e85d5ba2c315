import StackMachine.Assembly.Assembler
import StackMachine.Json.Reader

/-!
# Program files

A program is kept in a file as assembly or as JSON.  As JSON it is an array of objects,
each of one of three shapes: a constant with its value, a jump with its target, or an
opcode by itself.  An element that has the types of a shape but breaks one of its rules is
reported with everything that is wrong; one that has the types of none is reported as such.
-/

namespace StackMachine

namespace ProgramFile

/-! ### What can be wrong -/

/-- A rule of a shape that an element breaks. -/
inductive Flaw where
  /-- The number in a field is no integer. -/
  | fraction (field : Text)
  /-- The number that is the value is too great to be exact. -/
  | inexact
  /-- The text that is the value is no decimal integer. -/
  | noInteger
  /-- The opcode does not stand by itself. -/
  | opcode (name : Text)
  /-- There are fields that the shape does not have. -/
  | unexpected (keys : List Text)
deriving DecidableEq, Repr

/-- What is wrong with an opcode that stands by itself. -/
def opcodeMessage (name : Text) : Text :=
  match Opcode.ofMnemonic? name with
  | none => Text.concat ["Unknown opcode '", name, "'."]
  | some opcode =>
    match opcode.immediate with
    | .word => Text.concat ["'", name, "' requires a value."]
    | _ => Text.concat ["'", name, "' requires a target."]

/-- The message of a flaw; it begins with the field that it is about. -/
def Flaw.message : Flaw → Text
  | fraction field => Text.concat [field, ": Expected integer, received float"]
  | inexact => "value: Integer is not exactly representable; write it as a string."
  | noInteger => "value: Expected a decimal integer string."
  | opcode name => Text.concat ["op: ", opcodeMessage name]
  | unexpected keys => unexpectedMessage keys

/-- What is wrong with the JSON text of a program. -/
inductive Problem where
  /-- The text is not JSON. -/
  | notJson
  /-- The value is not an array but of another type. -/
  | notArray (type : Text)
  /-- The element with an index breaks a rule of the shape that it has. -/
  | flawed (index : Nat) (flaw : Flaw)
  /-- The element with an index has none of the shapes. -/
  | shapeless (index : Nat)
deriving DecidableEq, Repr

/-- Stands for what the reader of JSON says of a text that is not JSON, which differs from
reader to reader. -/
def notJsonMessage : Text := "JSON_SYNTAX_ERROR"

/-- The message of a problem. -/
def Problem.message : Problem → Text
  | notJson => Text.concat ["Invalid JSON: ", notJsonMessage]
  | notArray type => Text.concat ["Expected array, received ", type]
  | flawed _ flaw => flaw.message
  | shapeless _ =>
    Text.concat ["Expected \x7bop: 'loadc', value\x7d, ", "\x7bop: 'jump' | 'jumpz', target\x7d or ",
      "\x7bop: <mnemonic>\x7d."]

/-- The index of the element that a problem is about. -/
def Problem.index : Problem → Option Nat
  | flawed index _ => some index
  | shapeless index => some index
  | _ => none

/-- The hint of a problem. -/
def Problem.hint : Problem → Option Text
  | notArray _ => some "A program is a JSON array of instructions."
  | _ => none

/-- The diagnostic of a problem. -/
def Problem.diagnostic (p : Problem) : Diagnostic :=
  { code := "E_PROGRAM_JSON", message := p.message, index := p.index.map Number.ofNat
    hint := p.hint }

/-! ### Shapes -/

/-- How an element compares with a shape. -/
inductive Fit where
  /-- The element has the shape and is an instruction. -/
  | exact (instruction : Instruction Number)
  /-- The element has the types of the shape but breaks rules of it. -/
  | flawed (flaws : List Flaw)
  /-- The element has not the types of the shape. -/
  | other
deriving DecidableEq, Repr

/-- An element that is an instruction if there are no flaws. -/
def Fit.ofFlaws (instruction : Instruction Number) : List Flaw → Fit
  | [] => exact instruction
  | flaws => flawed flaws

/-- The flaw of having fields that are not known. -/
def extraFields (known : List Text) (fields : Fields Json) : List Flaw :=
  match fields.unexpected known with
  | [] => []
  | keys => [.unexpected keys]

/-- The text of the opcode of an element. -/
def opcodeText? (fields : Fields Json) : Option Text := (fields.get? "op").bind Json.string?

/-- What is wrong with a number as the value of a constant. -/
def valueFlaws (x : Number) : List Flaw :=
  (if x.isInteger then [] else [.fraction "value"])
    ++ (if x.toSafeInt?.isSome then [] else [.inexact])

/-- The first shape: `loadc` with a value, a number or a text. -/
def constantFit (fields : Fields Json) : Fit :=
  let extra := extraFields ["op", "value"] fields
  if opcodeText? fields = some (Text.ofString "loadc") then
    match fields.get? "value" with
    | some (.number x) => .ofFlaws (.loadc (x.toInt?.getD 0)) (valueFlaws x ++ extra)
    | some (.string t) =>
      match Text.toInt? t with
      | some value => .ofFlaws (.loadc value) extra
      | none => .flawed (.noInteger :: extra)
    | _ => .other
  else .other

/-- The jump that a text names. -/
def jump? (name : Text) : Option (Number → Instruction Number) :=
  if name = Text.ofString "jump" then some .jump
  else if name = Text.ofString "jumpz" then some .jumpz
  else none

/-- The second shape: `jump` or `jumpz` with a target, a number. -/
def jumpFit (fields : Fields Json) : Fit :=
  match (opcodeText? fields).bind jump?, fields.get? "target" with
  | some jump, some (.number x) =>
    .ofFlaws (jump x) ((if x.isInteger then [] else [.fraction "target"])
      ++ extraFields ["op", "target"] fields)
  | _, _ => .other

/-- The third shape: an opcode without an immediate. -/
def nullaryFit (fields : Fields Json) : Fit :=
  let extra := extraFields ["op"] fields
  match opcodeText? fields with
  | none => .other
  | some name =>
    match (Opcode.ofMnemonic? name).bind Instruction.ofNullary? with
    | some instruction => .ofFlaws instruction extra
    | none => .flawed (.opcode name :: extra)

/-- How an element compares with each of the three shapes. -/
def fits : Json → List Fit
  | .object fields => [constantFit fields, jumpFit fields, nullaryFit fields]
  | _ => []

/-- The instruction of the shape that fits. -/
def Fit.instruction? : Fit → Option (Instruction Number)
  | exact instruction => some instruction
  | _ => none

/-- The flaws by which a shape does not fit. -/
def Fit.flaws? : Fit → Option (List Flaw)
  | flawed flaws => some flaws
  | _ => none

/-- The instruction that the element with an index is, or what is wrong with it: the flaws
of the first shape of which it has the types. -/
def element (index : Nat) (v : Json) : Except (List Problem) (Instruction Number) :=
  match (fits v).findSome? Fit.instruction?, (fits v).findSome? Fit.flaws? with
  | some instruction, _ => .ok instruction
  | none, some flaws => .error (flaws.map (.flawed index))
  | none, none => .error [.shapeless index]

/-! ### Programs -/

/-- The elements of an array, each an instruction or what is wrong with it. -/
def elements (items : List Json) : List (Except (List Problem) (Instruction Number)) :=
  items.zipIdx.map fun (v, index) => element index v

/-- The problems of the elements, in their order. -/
def problems (results : List (Except (List Problem) (Instruction Number))) : List Problem :=
  results.flatMap fun
    | .ok _ => []
    | .error ps => ps

/-- The program that a JSON value is, or everything that is wrong with it. -/
def ofJson : Json → Except (List Problem) Program
  | .array items =>
    match problems (elements items) with
    | [] => .ok ((elements items).filterMap Except.toOption)
    | ps => .error ps
  | v => .error [.notArray v.typeName]

/-- The program of a JSON text. -/
def parseJson (source : Text) : Except (List Problem) Program :=
  match Json.parse? source with
  | some v => ofJson v
  | none => .error [.notJson]

/-- Whether a file of a name is read as JSON: the name ends in `.json`, in any case. -/
def isJson (file : Text) : Bool := Text.endsWithIgnoringCase ".json" file

end ProgramFile

/-- The program of a JSON text, or the diagnostics of what is wrong with it. -/
def Program.ofJsonText (source : Text) : Except (List Diagnostic) Program :=
  (ProgramFile.parseJson source).mapError (·.map ProgramFile.Problem.diagnostic)

/-- The program of the text of a file, or the diagnostics of what is wrong with it. -/
def Program.ofFile (source file : Text) : Except (List Diagnostic) Program :=
  if ProgramFile.isJson file then ofJsonText source
  else (Assembly.assembleFile source file).map Code.toProgram

end StackMachine
