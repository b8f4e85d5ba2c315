import StackMachine.Assembly.Line
import StackMachine.Diagnostic
import StackMachine.Instruction
import StackMachine.Word

/-!
# Assembling

A label names the number of instructions before it, wherever in the text it is defined.
Once the table of labels is known each instruction is encoded by itself, and a text is
assembled if it scans, parses, defines no label twice and encodes throughout.
-/

namespace StackMachine

namespace Assembly

/-- What is wrong with a text of assembly. -/
inductive Problem where
  | lexical (error : LexError)
  | grammatical (error : ParseError)
  | duplicateLabel (label : Token)
  | unknownLabel (label : Token)
  | constantRange (constant : Token)
  | unexpectedOperand (opcode : Opcode) (operand : Token)
  | missingOperand (opcode : Opcode) (mnemonic : Token)
  | noTarget (value : Int) (operand : Token)
deriving DecidableEq, Repr

/-- The stretch of a file that begins at a place and has some units. -/
def Place.span (p : Place) (length : Nat) (file : Text) : Span :=
  { file, startLine := .ofNat p.line, startCol := .ofNat p.column, endLine := .ofNat p.line
    endCol := .ofNat (p.column + length) }

/-- The stretch of a file that a token takes up. -/
def Token.span (t : Token) (file : Text) : Span := t.place.span t.image.length file

/-- The message for a token that comes where one of a kind has to. -/
def expecting (kind : TokenKind) (image : Text) : Text :=
  Text.concat ["Expecting token of type --> ", kind.name, " <-- but found --> '", image, "' <--"]

/-- The message of a parse error. -/
def ParseError.message : ParseError → Text
  | expectedColon t => expecting .colon t.image
  | expectedNewline t => expecting .newline t.image
  | redundant t => Text.concat ["Redundant input, expecting EOF but found: ", t.image]
  | unfinished => expecting .newline []

/-- The stretch of a file that a parse error is about. -/
def ParseError.span (file : Text) : ParseError → Span
  | expectedColon t => t.span file
  | expectedNewline t => t.span file
  | redundant t => t.span file
  | unfinished => Place.start.span 1 file

/-- What an opcode wants to be written after it. -/
def wanted (opcode : Opcode) : Text :=
  match opcode.immediate with
  | .word => "a constant"
  | _ => "a jump target"

/-- The diagnostic of a problem in a file. -/
def Problem.diagnostic (file : Text) : Problem → Diagnostic
  | lexical e =>
    { code := "E_LEX", message := e.message, span := some (e.place.span e.length file)
      hint := some "Check for invalid characters or malformed numbers." }
  | grammatical e =>
    { code := "E_PARSE", message := e.message, span := some (e.span file)
      hint := some "Write one instruction per line, optionally preceded by 'label:'." }
  | duplicateLabel t =>
    { code := "E_DUP_LABEL"
      message := Text.concat ["Label '", t.image, "' is already defined."]
      span := some (t.span file), hint := some "Each label may be defined once." }
  | unknownLabel t =>
    { code := "E_UNKNOWN_LABEL", message := Text.concat ["Unknown label '", t.image, "'."]
      span := some (t.span file) }
  | constantRange t =>
    { code := "E_RANGE"
      message := Text.concat ["Constant ", t.image, " is outside the 64-bit word range."]
      span := some (t.span file) }
  | unexpectedOperand opcode t =>
    { code := "E_OPERAND"
      message := Text.concat ["'", opcode.mnemonic, "' takes no operand."]
      span := some (t.span file) }
  | missingOperand opcode t =>
    { code := "E_OPERAND"
      message := Text.concat ["'", opcode.mnemonic, "' requires ", wanted opcode, "."]
      span := some (t.span file) }
  | noTarget value t =>
    { code := "E_TARGET"
      message := Text.concat ["Jump target must be a non-negative instruction index, found ",
        Text.ofInt value, "."]
      span := some (t.span file) }

/-- A label with the number of instructions before it. -/
abbrev Definition := Token × Nat

/-- The labels of lines, where `index` instructions come before the first line. -/
def definitions (index : Nat) : List Line → List Definition
  | [] => []
  | line :: r =>
    line.labels.map (·, index)
      ++ definitions (if line.statement.isSome then index + 1 else index) r

/-- The definitions whose name is one of `seen` or was defined before. -/
def duplicates (seen : List Text) : List Definition → List Problem
  | [] => []
  | (t, _) :: r =>
    if seen.contains t.image then .duplicateLabel t :: duplicates seen r
    else duplicates (t.image :: seen) r

/-- What a label names: its first definition counts. -/
def lookup? (table : List Definition) (name : Text) : Option Nat :=
  (table.find? fun d => d.1.image = name).map (·.2)

/-- The integer that an operand denotes. -/
def resolve (table : List Definition) : Operand → Except Problem Int
  | .label t =>
    match lookup? table t.image with
    | some index => .ok index
    | none => .error (.unknownLabel t)
  | .integer t =>
    let value := (Text.toInt? t.image).getD 0
    if Word.IsWord value then .ok value else .error (.constantRange t)

/-- The position to which an integer operand jumps. -/
def targetOf (token : Token) (value : Int) : Except Problem Nat :=
  if 0 ≤ value ∧ value ≤ Number.maxSafe then .ok value.toNat else .error (.noTarget value token)

/-- The instruction of a statement. -/
def encode (table : List Definition) (s : Statement) : Except Problem (Instruction Nat) :=
  match Instruction.ofNullary? s.opcode, s.operand with
  | some i, none => .ok i
  | some _, some operand => .error (.unexpectedOperand s.opcode operand.token)
  | none, none => .error (.missingOperand s.opcode s.mnemonic)
  | none, some operand => do
    let value ← resolve table operand
    match s.opcode with
    | .loadc => return .loadc value
    | .jump => return .jump (← targetOf operand.token value)
    | _ => return .jumpz (← targetOf operand.token value)

/-- The instructions that lines write down, each with what is wrong with it. -/
def encodeAll (lines : List Line) : List (Except Problem (Instruction Nat)) :=
  (lines.filterMap Line.statement).map (encode (definitions 0 lines))

/-- The problems among results. -/
def problems {α : Type} (results : List (Except Problem α)) : List Problem :=
  results.filterMap fun
    | .ok _ => none
    | .error p => some p

/-- The code of lines, or everything that is wrong with them. -/
def encodeLines (lines : List Line) : Except (List Problem) Code :=
  match duplicates [] (definitions 0 lines) ++ problems (encodeAll lines) with
  | [] => .ok ((encodeAll lines).filterMap Except.toOption)
  | ps => .error ps

/-- A text that ends with a line feed, one being added if there is none. -/
def terminated (source : Text) : Text :=
  if source.getLast? = some Text.lineFeed then source else source ++ [Text.lineFeed]

/-- The code of a text, or everything that is wrong with it. -/
def assemble (source : Text) : Except (List Problem) Code :=
  let lexed := Lexed.scan .start (terminated source)
  match Lexed.errors lexed with
  | [] =>
    match Line.ofTokens (Lexed.tokens lexed) with
    | .ok lines => encodeLines lines
    | .error e => .error [.grammatical e]
  | errors => .error (errors.map .lexical)

/-- The code of a file, or the diagnostics of everything that is wrong with it. -/
def assembleFile (source file : Text) : Except (List Diagnostic) Code :=
  (assemble source).mapError (·.map (Problem.diagnostic file))

end Assembly

end StackMachine
