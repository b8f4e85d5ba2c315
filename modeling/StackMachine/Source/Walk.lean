import StackMachine.Source.Syntax

/-!
# Walks through the source

A walk visits the nodes of a statement or an expression: each before the nodes below it,
and those from left to right in the order in which they are written.  Below a node of a
kind that is to be skipped nothing is visited.
-/

namespace StackMachine

namespace Source

/-- A node of the source. -/
inductive Node where
  | expr (e : Expr)
  | stmt (s : Stmt)
deriving Repr, Inhabited

/-- A visit to a node at a depth below the node where the walk began. -/
structure Visit where
  depth : Nat
  node : Node
deriving Repr, Inhabited

/-- The kind of a node. -/
def Node.kind : Node → Kind
  | expr e => e.kind
  | stmt s => s.kind

/-! ### Walking -/

section

variable (skip : Kind → Bool)

mutual

/-- The visits of a walk through an expression at a depth. -/
def Expr.walk (depth : Nat) (e : Expr) : List Visit :=
  ⟨depth, .expr e⟩ ::
    (if skip e.kind then []
    else match e with
      | .name _ => []
      | .int .. => []
      | .bool .. => []
      | .binary _ left right _ => left.walk (depth + 1) ++ right.walk (depth + 1)
      | .unary _ operand _ => operand.walk (depth + 1)
      | .call _ arguments _ => walkAll (depth + 1) arguments)

/-- The visits of walks through expressions one after another. -/
def Expr.walkAll (depth : Nat) : List Expr → List Visit
  | [] => []
  | e :: r => e.walk depth ++ walkAll depth r

end

mutual

/-- The visits of a walk through a statement at a depth. -/
def Stmt.walk (depth : Nat) (s : Stmt) : List Visit :=
  ⟨depth, .stmt s⟩ ::
    (if skip s.kind then []
    else match s with
      | .block body _ => walkAll (depth + 1) body
      | .whileLoop test body _ => test.walk skip (depth + 1) ++ body.walk (depth + 1)
      | .ifThen test yes _ => test.walk skip (depth + 1) ++ yes.walk (depth + 1)
      | .ifThenElse test yes no _ =>
        test.walk skip (depth + 1) ++ yes.walk (depth + 1) ++ no.walk (depth + 1)
      | .result none _ => []
      | .result (some value) _ => value.walk skip (depth + 1)
      | .declare _ value _ => value.walk skip (depth + 1)
      | .function _ parameters body _ =>
        parameters.map (fun n => ⟨depth + 1, .expr (.name n)⟩) ++ body.walk (depth + 1)
      | .assign target value _ => target.walk skip (depth + 1) ++ value.walk skip (depth + 1)
      | .forLoop start test update body _ =>
        start.walk (depth + 1) ++ test.walk skip (depth + 1) ++ update.walk (depth + 1)
          ++ body.walk (depth + 1))

/-- The visits of walks through statements one after another. -/
def Stmt.walkAll (depth : Nat) : List Stmt → List Visit
  | [] => []
  | s :: r => s.walk depth ++ walkAll depth r

end

/-- The visits of a walk that begins at a node. -/
def Node.walk : Node → List Visit
  | expr e => e.walk skip 0
  | stmt s => s.walk skip 0

end

/-! ### Telling what was visited -/

/-- What an expression is labelled with: its name, its operator or its value. -/
def Expr.label : Expr → Option Text
  | name n => some n.text
  | int value _ => some (Text.ofInt value)
  | bool value _ => some (if value then Text.ofString "true" else Text.ofString "false")
  | binary op .. => some op.symbol
  | unary op .. => some op.symbol
  | call function .. => some function

/-- What a statement is labelled with: the name that it declares. -/
def Stmt.label : Stmt → Option Text
  | declare name .. => some name
  | function name .. => some name
  | _ => none

/-- What a node is labelled with. -/
def Node.label : Node → Option Text
  | expr e => e.label
  | stmt s => s.label

/-- The word that tells expressions from statements. -/
def Node.sort : Node → Text
  | expr _ => "expr"
  | stmt _ => "stmt"

/-- A visit on one line: the depth, the sort and kind of the node, and its label. -/
def Visit.toText (v : Visit) : Text :=
  Text.join " " ([Text.ofNat v.depth, v.node.sort, v.node.kind.name] ++ v.node.label.toList)

end Source

end StackMachine
