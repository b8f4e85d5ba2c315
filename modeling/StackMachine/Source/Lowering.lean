import StackMachine.Instruction
import StackMachine.Source.Syntax
import StackMachine.Word

/-!
# Lowering

Statements become code for the machine.  A variable lives in the memory at the position of
its first declaration among all names.  An expression becomes code that pushes its value,
and a statement becomes code that leaves the stack as it was.  What cannot be lowered is
reported, all of it, in the order of the source.
-/

namespace StackMachine

namespace Source

/-! ### Problems -/

/-- Why a part of the source cannot be lowered. -/
inductive Problem where
  /-- An assignment to an expression that is not a variable. -/
  | assignment (kind : Kind) (span : Option Span)
  /-- The declaration of a function. -/
  | function (name : Text) (span : Option Span)
  /-- The call of a function. -/
  | call (name : Text) (span : Option Span)
  /-- A literal that is no word. -/
  | literalRange (value : Int) (span : Option Span)
  /-- A name that is not declared before. -/
  | unbound (name : Name)
deriving DecidableEq, Repr

/-- The diagnostic of a problem. -/
def Problem.diagnostic : Problem → Diagnostic
  | assignment kind span =>
    { code := "E_LVALUE", message := Text.concat ["Cannot assign to a ", kind.name, "."], span
      hint := some "Only variables can be assigned." }
  | function name span =>
    { code := "E_UNSUPPORTED", span
      message := Text.concat ["Function '", name,
        "' cannot be lowered: the machine has no call instruction."] }
  | call name span =>
    { code := "E_UNSUPPORTED", span
      message := Text.concat ["Call to '", name,
        "' cannot be lowered: the machine has no call instruction."] }
  | literalRange value span =>
    { code := "E_RANGE", span
      message := Text.concat ["Literal ", Text.ofInt value,
        " is outside the 64-bit word range."] }
  | unbound name =>
    { code := "E_UNBOUND", message := Text.concat ["Unbound name '", name.text, "'."]
      span := name.span, hint := some "Declare variables before use." }

/-! ### Variables -/

/-- The names that have been declared, each once, in the order of their slots. -/
abbrev Scope := List Text

/-- The scope after the declaration of a name; a name that is there already keeps its
slot. -/
def Scope.declare (scope : Scope) (name : Text) : Scope :=
  if scope.contains name then scope else scope ++ [name]

/-- The slot of a name. -/
def Scope.slot? (scope : Scope) (name : Text) : Option Nat := scope.idxOf? name

mutual

/-- The scope after a statement. -/
def Stmt.scopeAfter (scope : Scope) : Stmt → Scope
  | .block body _ => scopeAfterAll scope body
  | .whileLoop _ body _ => body.scopeAfter scope
  | .ifThen _ yes _ => yes.scopeAfter scope
  | .ifThenElse _ yes no _ => no.scopeAfter (yes.scopeAfter scope)
  | .result .. => scope
  | .declare name .. => scope.declare name
  | .function .. => scope
  | .assign .. => scope
  | .forLoop start _ update body _ =>
    update.scopeAfter (body.scopeAfter (start.scopeAfter scope))

/-- The scope after statements. -/
def Stmt.scopeAfterAll (scope : Scope) : List Stmt → Scope
  | [] => scope
  | s :: r => scopeAfterAll (s.scopeAfter scope) r

end

/-! ### Code -/

/-- What a part of the source becomes: code, and the problems that were found.  The code
is of use only if there are none. -/
structure Piece where
  code : Code
  problems : List Problem
deriving DecidableEq, Repr

namespace Piece

/-- No code and no problems. -/
def empty : Piece := ⟨[], []⟩

/-- Code without problems. -/
def ofCode (code : Code) : Piece := ⟨code, []⟩

/-- A problem in place of code. -/
def ofProblem (p : Problem) : Piece := ⟨[], [p]⟩

/-- One piece followed by another. -/
def append (p q : Piece) : Piece := ⟨p.code ++ q.code, p.problems ++ q.problems⟩

instance : Append Piece := ⟨append⟩

end Piece

/-- The code that reads a variable. -/
def readSlot (slot : Nat) : Code := [.loadc slot, .load]

/-- The code that pops a value into a variable. -/
def writeSlot (slot : Nat) : Code := [.loadc slot, .store, .pop]

/-- The word that stands for a truth value. -/
def truth (b : Bool) : Int := if b then 1 else 0

/-- The slot of a name, or the problem that it has none. -/
def Name.slot (scope : Scope) (n : Name) : Except Problem Nat :=
  match scope.slot? n.text with
  | some slot => .ok slot
  | none => .error (.unbound n)

/-- The code that pushes the value of an expression. -/
def Expr.lower (scope : Scope) : Expr → Piece
  | .name n =>
    match n.slot scope with
    | .ok slot => .ofCode (readSlot slot)
    | .error p => .ofProblem p
  | .int value span =>
    if Word.IsWord value then .ofCode [.loadc value] else .ofProblem (.literalRange value span)
  | .bool value _ => .ofCode [.loadc (truth value)]
  | .binary op left right _ => left.lower scope ++ right.lower scope ++ .ofCode [.binary op]
  | .unary op operand _ => operand.lower scope ++ .ofCode [.unary op]
  | .call function _ span => .ofProblem (.call function span)

/-- An assignment: the name is looked up before the value is examined. -/
def lowerAssign (scope : Scope) (target value : Expr) (span : Option Span) : Piece :=
  match target with
  | .name n =>
    match n.slot scope with
    | .ok slot => value.lower scope ++ .ofCode (writeSlot slot)
    | .error p => .ofProblem p ++ value.lower scope
  | e => .ofProblem (.assignment e.kind (e.span <|> span))

/-- A test and a body that ends where the test begins, entered at a base position: while
the test is not zero, the body is executed. -/
def loop (base : Nat) (test body : Piece) : Piece :=
  let exit := base + test.code.length + body.code.length + 2
  test ++ .ofCode [.jumpz exit] ++ body ++ .ofCode [.jump base]

mutual

/-- The code of a statement that is placed at a base position. -/
def Stmt.lower (scope : Scope) (base : Nat) : Stmt → Piece
  | .block body _ => lowerAll scope base body
  | .whileLoop test body _ =>
    let test := test.lower scope
    loop base test (body.lower scope (base + test.code.length + 1))
  | .ifThen test yes _ =>
    let test := test.lower scope
    let yes := yes.lower scope (base + test.code.length + 1)
    let after := base + test.code.length + yes.code.length + 1
    test ++ .ofCode [.jumpz after] ++ yes
  | .ifThenElse test yes no _ =>
    let test := test.lower scope
    let body := yes.lower scope (base + test.code.length + 1)
    let otherwise := base + test.code.length + body.code.length + 2
    let no := no.lower (yes.scopeAfter scope) otherwise
    test ++ .ofCode [.jumpz otherwise] ++ body ++ .ofCode [.jump (otherwise + no.code.length)]
      ++ no
  | .result none _ => .ofCode [.halt]
  | .result (some value) _ => value.lower scope ++ .ofCode [.halt]
  | .declare name value _ =>
    value.lower scope ++ .ofCode (writeSlot (((scope.declare name).slot? name).getD 0))
  | .function name _ _ span => .ofProblem (.function name span)
  | .assign target value span => lowerAssign scope target value span
  | .forLoop start test update body _ =>
    let inner := start.scopeAfter scope
    let start := start.lower scope base
    let top := base + start.code.length
    let test := test.lower inner
    let first := body.lower inner (top + test.code.length + 1)
    let second := update.lower (body.scopeAfter inner)
      (top + test.code.length + 1 + first.code.length)
    start ++ loop top test (first ++ second)

/-- The code of statements one after another, placed at a base position. -/
def Stmt.lowerAll (scope : Scope) (base : Nat) : List Stmt → Piece
  | [] => .empty
  | s :: r =>
    let first := s.lower scope base
    first ++ lowerAll (s.scopeAfter scope) (base + first.code.length) r

end

/-- The code of a program, which ends in `halt`, or everything that cannot be lowered. -/
def lower (statements : List Stmt) : Except (List Problem) Code :=
  match Stmt.lowerAll [] 0 statements with
  | ⟨code, []⟩ => .ok (code ++ [.halt])
  | ⟨_, problems⟩ => .error problems

end Source

end StackMachine
