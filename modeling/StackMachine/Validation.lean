import StackMachine.Datum
import StackMachine.Diagnostic
import StackMachine.Instruction
import StackMachine.Word

/-!
# Validation of programs

An untyped program is a list of untyped values, without holes: there is a value at each
position.  `Instruction.ofDatum` reads one of them or tells why it is no instruction;
`checkStructure` collects what is wrong with each by itself, and `validate` adds what is
wrong with the program as a whole: that it is empty, and that jumps lead past its end.
What is wrong is told in messages, and there is no message about a value without a text.
-/

namespace StackMachine

/-- Why an untyped value is no instruction, with what a message shows of it. -/
inductive Malformation where
  | unknownOpcode (shown : Text)
  | missingConstant (opcode : Opcode)
  | constantRange (value : Int)
  | missingTarget (opcode : Opcode)
  | noTarget (shown : Text)
deriving DecidableEq, Repr

namespace Malformation

/-- The code of a malformation. -/
def code : Malformation → Text
  | unknownOpcode _ => "E_OPCODE"
  | missingConstant _ => "E_IMMEDIATE"
  | constantRange _ => "E_RANGE"
  | missingTarget _ => "E_IMMEDIATE"
  | noTarget _ => "E_TARGET"

/-- The message of a malformation. -/
def message : Malformation → Text
  | unknownOpcode shown => Text.concat ["Unknown opcode '", shown, "'."]
  | missingConstant opcode => Text.concat ["'", opcode.mnemonic, "' requires an integer value."]
  | constantRange value =>
    Text.concat ["Constant ", Text.ofInt value, " is outside the 64-bit word range."]
  | missingTarget opcode => Text.concat ["'", opcode.mnemonic, "' requires a jump target."]
  | noTarget shown =>
    Text.concat ["Jump target must be a non-negative instruction index, found ", shown, "."]

/-- The hint of a malformation. -/
def hint : Malformation → Option Text
  | missingConstant _ => some "Build constants with loadc(value)."
  | _ => none

/-- The diagnostic of a malformation of the instruction with an index. -/
def diagnostic (index : Nat) (m : Malformation) : Diagnostic :=
  { code := m.code, message := m.message, index := some (.ofNat index), hint := m.hint }

end Malformation

/-- The position that an untyped value names as the target of a jump. -/
def targetOfDatum (opcode : Opcode) : Datum → Except (Option Malformation) Nat
  | .absent => .error (some (.missingTarget opcode))
  | .number x =>
    match x.toIndex? with
    | some target => .ok target
    | none => .error (some (.noTarget x.toText))
  | d => .error (d.toText?.map .noTarget)

/-- The word that an untyped value is. -/
def constantOfDatum (opcode : Opcode) : Datum → Except (Option Malformation) Int
  | .integer n => if Word.IsWord n then .ok n else .error (some (.constantRange n))
  | _ => .error (some (.missingConstant opcode))

/-- The opcode that an untyped value names. -/
def opcodeOfDatum (d : Datum) : Except (Option Malformation) Opcode :=
  match d with
  | .string t =>
    match Opcode.ofMnemonic? t with
    | some opcode => .ok opcode
    | none => .error (some (.unknownOpcode t))
  | _ => .error (d.toText?.map .unknownOpcode)

/-- The instruction that an untyped value is: a record with an opcode and, where the
opcode has one, its immediate.  Other fields do not matter.  Of a value that is none, it
is told why, unless a message would show a value without a text. -/
def Instruction.ofDatum (d : Datum) : Except (Option Malformation) (Instruction Nat) := do
  match ← opcodeOfDatum (d.field "op") with
  | .loadc => return loadc (← constantOfDatum .loadc (d.field "value"))
  | .jump => return jump (← targetOfDatum .jump (d.field "target"))
  | .jumpz => return jumpz (← targetOfDatum .jumpz (d.field "target"))
  | .load => return load
  | .store => return store
  | .pop => return pop
  | .new => return new
  | .halt => return halt
  | .binary op => return binary op
  | .unary op => return unary op

/-- What is found about the instructions of a program that are none: the diagnostic of
each, if there is one. -/
def findings (data : List Datum) : List (Option Diagnostic) :=
  data.zipIdx.filterMap fun (d, i) =>
    match Instruction.ofDatum d with
    | .ok _ => none
    | .error m => some (m.map (·.diagnostic i))

/-- What is wrong with the instructions of a program, each taken by itself; nothing is
reported if there is no diagnostic of one of them. -/
def checkStructure (data : List Datum) : Option (List Diagnostic) := (findings data).mapM id

/-- The integer to which an untyped value jumps, if it is a jump. -/
def jumpTarget? (d : Datum) : Option Number :=
  match d.field "op", d.field "target" with
  | .string op, .number x =>
    if (op = Text.ofString "jump" ∨ op = Text.ofString "jumpz") ∧ x.isInteger then some x
    else none
  | _, _ => none

/-- The diagnostic of a program without instructions. -/
def emptyProgram : Diagnostic :=
  { code := "E_EMPTY", message := "Program has no instructions."
    hint := some "End every program with 'halt'." }

/-- The diagnostic of a jump past the end of a program of a length. -/
def jumpRange (length index : Nat) (target : Number) : Diagnostic :=
  { code := "E_JUMP_RANGE"
    message := Text.concat ["Jump target ", target.toText, " is past the last instruction (",
      Text.ofInt ((length : Int) - 1), ")."]
    index := some (.ofNat index) }

/-- The jumps of a program that lead past its last instruction. -/
def checkJumps (data : List Datum) : List Diagnostic :=
  data.zipIdx.filterMap fun (d, i) =>
    match jumpTarget? d with
    | some x =>
      if (Number.ofNat data.length).le x then some (jumpRange data.length i x) else none
    | none => none

/-- Why a program cannot be validated. -/
inductive ValidationFailure where
  /-- A message is to show a value that has no text. -/
  | noText
  /-- An element has no fields to look at. -/
  | noFields
deriving DecidableEq, Repr

/-- Everything that is wrong with a program.  It fails if the structural check does, or else
if an element is missing. -/
def validate (data : List Datum) : Except ValidationFailure (List Diagnostic) :=
  match checkStructure data with
  | none => .error .noText
  | some diagnostics =>
    if data.all Datum.hasFields then
      .ok (diagnostics ++ (if data = [] then [emptyProgram] else []) ++ checkJumps data)
    else .error .noFields

/-- An instruction as an untyped value. -/
def Instruction.toDatum (i : Instruction Number) : Datum :=
  let op : Text × Datum := ("op", .string i.opcode.mnemonic)
  match i with
  | loadc value => .record [op, ("value", .integer value)]
  | jump target => .record [op, ("target", .number target)]
  | jumpz target => .record [op, ("target", .number target)]
  | _ => .record [op]

/-- A program as untyped values. -/
def Program.toData (program : Program) : List Datum := program.map Instruction.toDatum

end StackMachine
