import StackMachine.Diagnostic
import StackMachine.Operator

/-!
# The source language

Expressions over named variables, and statements that declare and assign variables,
branch, loop and end the program.  Functions can be written but not run.  Every node may
carry the stretch of text that it comes from.
-/

namespace StackMachine

namespace Source

/-- The kinds of expressions and statements. -/
inductive Kind where
  | identifier | intLiteral | boolLiteral | binary | unary | call
  | block | whileLoop | conditional | result | declaration | function | assignment | forLoop
deriving DecidableEq, Repr

/-- The name of a kind. -/
def Kind.name : Kind → Text
  | identifier => "Identifier"
  | intLiteral => "IntLiteral"
  | boolLiteral => "BoolLiteral"
  | binary => "BinaryExpr"
  | unary => "UnaryExpr"
  | call => "FunCallExpr"
  | block => "BlockStmt"
  | whileLoop => "WhileStmt"
  | conditional => "IfStmt"
  | result => "ReturnStmt"
  | declaration => "DeclarationStmt"
  | function => "FunDeclStmt"
  | assignment => "AssignmentStmt"
  | forLoop => "ForStmt"

/-- A place where a name is used. -/
structure Name where
  text : Text
  span : Option Span := none
deriving DecidableEq, Repr

/-- An expression. -/
inductive Expr where
  | name (name : Name)
  | int (value : Int) (span : Option Span)
  | bool (value : Bool) (span : Option Span)
  | binary (op : BinaryOperator) (left right : Expr) (span : Option Span)
  | unary (op : UnaryOperator) (operand : Expr) (span : Option Span)
  | call (function : Text) (arguments : List Expr) (span : Option Span)
deriving Repr, Inhabited

/-- A statement. -/
inductive Stmt where
  | block (body : List Stmt) (span : Option Span)
  | whileLoop (test : Expr) (body : Stmt) (span : Option Span)
  | ifThen (test : Expr) (yes : Stmt) (span : Option Span)
  | ifThenElse (test : Expr) (yes no : Stmt) (span : Option Span)
  | result (value : Option Expr) (span : Option Span)
  | declare (name : Text) (value : Expr) (span : Option Span)
  | function (name : Text) (parameters : List Name) (body : Stmt) (span : Option Span)
  | assign (target value : Expr) (span : Option Span)
  | forLoop (start : Stmt) (test : Expr) (update body : Stmt) (span : Option Span)
deriving Repr, Inhabited

/-- The kind of an expression. -/
def Expr.kind : Expr → Kind
  | name _ => .identifier
  | int .. => .intLiteral
  | bool .. => .boolLiteral
  | binary .. => .binary
  | unary .. => .unary
  | call .. => .call

/-- The stretch of text that an expression comes from. -/
def Expr.span : Expr → Option Span
  | name n => n.span
  | int _ s => s
  | bool _ s => s
  | binary _ _ _ s => s
  | unary _ _ s => s
  | call _ _ s => s

/-- The kind of a statement. -/
def Stmt.kind : Stmt → Kind
  | block .. => .block
  | whileLoop .. => .whileLoop
  | ifThen .. => .conditional
  | ifThenElse .. => .conditional
  | result .. => .result
  | declare .. => .declaration
  | function .. => .function
  | assign .. => .assignment
  | forLoop .. => .forLoop

end Source

/-- The symbol by which a source text names an operator. -/
def BinaryOperator.symbol : BinaryOperator → Text
  | add => "+"
  | sub => "-"
  | mul => "*"
  | div => "/"
  | mod => "%"
  | and => "&&"
  | or => "||"
  | eq => "=="
  | neq => "!="
  | lt => "<"
  | le => "<="
  | gt => ">"
  | ge => ">="

/-- The symbol by which a source text names an operator. -/
def UnaryOperator.symbol : UnaryOperator → Text
  | neg => "-"
  | not => "!"

end StackMachine
