import StackMachine.Assembly.Token

/-!
# Lines of assembly

A line is a sequence of labels, each an identifier and a colon, then at most one mnemonic
with at most one operand, then the line end.  The token that comes next always decides how
to go on, so the lines of a list of tokens are read by an automaton, and the first token
that cannot come is the one to blame.
-/

namespace StackMachine

namespace Assembly

/-- The operand of an instruction: an integer or the name of a label. -/
inductive Operand where
  | integer (token : Token)
  | label (token : Token)
deriving DecidableEq, Repr

/-- The token of an operand. -/
def Operand.token : Operand → Token
  | integer t => t
  | label t => t

/-- An instruction as it is written. -/
structure Statement where
  opcode : Opcode
  mnemonic : Token
  operand : Option Operand
deriving DecidableEq, Repr

/-- A line: the labels that stand before its instruction, if it has one. -/
structure Line where
  labels : List Token
  statement : Option Statement
deriving DecidableEq, Repr

/-- Why a list of tokens is not a sequence of lines. -/
inductive ParseError where
  /-- A colon had to come. -/
  | expectedColon (found : Token)
  /-- The end of the line had to come. -/
  | expectedNewline (found : Token)
  /-- A line cannot begin so. -/
  | redundant (found : Token)
  /-- The tokens end within a line. -/
  | unfinished
deriving DecidableEq, Repr

/-- The position of the automaton within a line. -/
inductive LineState where
  /-- After the labels so far. -/
  | labels (labels : List Token)
  /-- After an identifier, whose colon is due. -/
  | named (labels : List Token) (name : Token)
  /-- After a mnemonic. -/
  | opened (labels : List Token) (opcode : Opcode) (mnemonic : Token)
  /-- After an operand; the line has to end. -/
  | complete (labels : List Token) (statement : Statement)
deriving DecidableEq, Repr

namespace LineState

/-- The beginning of a line. -/
def start : LineState := labels []

/-- The position after a token, or the line that the token ends. -/
def step : LineState → Token → Except ParseError (LineState ⊕ Line)
  | labels ls, t =>
    match t.kind with
    | .identifier => .ok (.inl (named ls t))
    | .mnemonic opcode => .ok (.inl (opened ls opcode t))
    | .newline => .ok (.inr ⟨ls, none⟩)
    | _ => .error (if ls = [] then .redundant t else .expectedNewline t)
  | named ls name, t =>
    match t.kind with
    | .colon => .ok (.inl (labels (ls ++ [name])))
    | _ => .error (.expectedColon t)
  | opened ls opcode m, t =>
    match t.kind with
    | .integer => .ok (.inl (complete ls ⟨opcode, m, some (.integer t)⟩))
    | .identifier => .ok (.inl (complete ls ⟨opcode, m, some (.label t)⟩))
    | .newline => .ok (.inr ⟨ls, some ⟨opcode, m, none⟩⟩)
    | _ => .error (.expectedNewline t)
  | complete ls statement, t =>
    match t.kind with
    | .newline => .ok (.inr ⟨ls, some statement⟩)
    | _ => .error (.expectedNewline t)

end LineState

namespace Line

/-- The lines of a list of tokens, the first of which has begun. -/
def ofTokensFrom : LineState → List Token → Except ParseError (List Line)
  | s, [] => if s = .start then .ok [] else .error .unfinished
  | s, t :: r =>
    match s.step t with
    | .error e => .error e
    | .ok (.inl s) => ofTokensFrom s r
    | .ok (.inr line) => (ofTokensFrom .start r).map (line :: ·)

/-- The lines of a list of tokens. -/
def ofTokens (ts : List Token) : Except ParseError (List Line) := ofTokensFrom .start ts

end Line

end Assembly

end StackMachine
