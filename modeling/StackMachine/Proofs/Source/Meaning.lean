import Mathlib.Data.List.Dedup
import Mathlib.Logic.Function.Basic
import StackMachine.Source.Syntax
import StackMachine.Word

/-!
# Meaning of the source

What expressions and statements do, apart from any machine.  An expression has a value or
faults; a statement ends normally with new values of the variables, returns, or faults.  A
statement that is executed for ever has no result.
-/

namespace StackMachine

namespace Source

/-! ### Results -/

/-- The values of the variables. -/
abbrev Env := Text → Int

/-- The values before the first statement: every variable is 0. -/
def Env.initial : Env := fun _ => 0

/-- How the execution of statements ends. -/
inductive Result where
  | normal (env : Env)
  | returned (value : Option Int)
  | faulted (fault : Fault)

/-- A result after which no statement is executed any more. -/
def Result.IsAbrupt : Result → Prop
  | normal _ => False
  | returned _ => True
  | faulted _ => True

/-! ### Expressions -/

/-- The value of an expression, or its fault.  Operands are evaluated from left to right, all
of them for every operator; calls have no value. -/
inductive Expr.Evaluates (env : Env) : Expr → Except Fault Int → Prop where
  | name (n : Name) : Evaluates env (.name n) (.ok (env n.text))
  | int (value : Int) (span : Option Span) : Evaluates env (.int value span) (.ok value)
  | bool (value : Bool) (span : Option Span) :
      Evaluates env (.bool value span) (.ok (Word.ofBool value))
  | binary {op : BinaryOperator} {left right : Expr} {span : Option Span} {a b : Int}
      {r : Except Fault Int} (hleft : Evaluates env left (.ok a))
      (hright : Evaluates env right (.ok b)) (hr : op.apply a b = r) :
      Evaluates env (.binary op left right span) r
  | binaryLeft {op : BinaryOperator} {left right : Expr} {span : Option Span} {fault : Fault}
      (hleft : Evaluates env left (.error fault)) :
      Evaluates env (.binary op left right span) (.error fault)
  | binaryRight {op : BinaryOperator} {left right : Expr} {span : Option Span} {a : Int}
      {fault : Fault} (hleft : Evaluates env left (.ok a))
      (hright : Evaluates env right (.error fault)) :
      Evaluates env (.binary op left right span) (.error fault)
  | unary {op : UnaryOperator} {operand : Expr} {span : Option Span} {a : Int}
      {r : Except Fault Int} (hoperand : Evaluates env operand (.ok a)) (hr : op.apply a = r) :
      Evaluates env (.unary op operand span) r
  | unaryOperand {op : UnaryOperator} {operand : Expr} {span : Option Span} {fault : Fault}
      (hoperand : Evaluates env operand (.error fault)) :
      Evaluates env (.unary op operand span) (.error fault)

/-! ### Statements -/

mutual

/-- The execution of a statement. -/
inductive Stmt.Executes : Stmt → Env → Result → Prop where
  | block {body : List Stmt} {span : Option Span} {env : Env} {r : Result}
      (hbody : Stmt.ExecutesAll body env r) : Executes (.block body span) env r
  | whileLoop {test : Expr} {body : Stmt} {span : Option Span} {env : Env} {r : Result}
      (hloop : Stmt.Repeats test [body] env r) : Executes (.whileLoop test body span) env r
  | ifThenFault {test : Expr} {yes : Stmt} {span : Option Span} {env : Env} {fault : Fault}
      (htest : test.Evaluates env (.error fault)) :
      Executes (.ifThen test yes span) env (.faulted fault)
  | ifThenTaken {test : Expr} {yes : Stmt} {span : Option Span} {env : Env} {w : Int}
      {r : Result} (htest : test.Evaluates env (.ok w)) (hw : w ≠ 0)
      (hyes : Executes yes env r) : Executes (.ifThen test yes span) env r
  | ifThenPassed {test : Expr} {yes : Stmt} {span : Option Span} {env : Env}
      (htest : test.Evaluates env (.ok 0)) : Executes (.ifThen test yes span) env (.normal env)
  | ifThenElseFault {test : Expr} {yes no : Stmt} {span : Option Span} {env : Env}
      {fault : Fault} (htest : test.Evaluates env (.error fault)) :
      Executes (.ifThenElse test yes no span) env (.faulted fault)
  | ifThenElseTaken {test : Expr} {yes no : Stmt} {span : Option Span} {env : Env} {w : Int}
      {r : Result} (htest : test.Evaluates env (.ok w)) (hw : w ≠ 0)
      (hyes : Executes yes env r) : Executes (.ifThenElse test yes no span) env r
  | ifThenElsePassed {test : Expr} {yes no : Stmt} {span : Option Span} {env : Env}
      {r : Result} (htest : test.Evaluates env (.ok 0)) (hno : Executes no env r) :
      Executes (.ifThenElse test yes no span) env r
  | resultNone {span : Option Span} {env : Env} :
      Executes (.result none span) env (.returned none)
  | resultFault {value : Expr} {span : Option Span} {env : Env} {fault : Fault}
      (hvalue : value.Evaluates env (.error fault)) :
      Executes (.result (some value) span) env (.faulted fault)
  | resultSome {value : Expr} {span : Option Span} {env : Env} {w : Int}
      (hvalue : value.Evaluates env (.ok w)) :
      Executes (.result (some value) span) env (.returned (some w))
  | declareFault {name : Text} {value : Expr} {span : Option Span} {env : Env} {fault : Fault}
      (hvalue : value.Evaluates env (.error fault)) :
      Executes (.declare name value span) env (.faulted fault)
  | declare {name : Text} {value : Expr} {span : Option Span} {env : Env} {w : Int}
      (hvalue : value.Evaluates env (.ok w)) :
      Executes (.declare name value span) env (.normal (Function.update env name w))
  | assignFault {n : Name} {value : Expr} {span : Option Span} {env : Env} {fault : Fault}
      (hvalue : value.Evaluates env (.error fault)) :
      Executes (.assign (.name n) value span) env (.faulted fault)
  | assign {n : Name} {value : Expr} {span : Option Span} {env : Env} {w : Int}
      (hvalue : value.Evaluates env (.ok w)) :
      Executes (.assign (.name n) value span) env (.normal (Function.update env n.text w))
  | forLoopStop {start : Stmt} {test : Expr} {update body : Stmt} {span : Option Span}
      {env : Env} {r : Result} (hstart : Executes start env r) (hr : r.IsAbrupt) :
      Executes (.forLoop start test update body span) env r
  | forLoop {start : Stmt} {test : Expr} {update body : Stmt} {span : Option Span}
      {env env' : Env} {r : Result} (hstart : Executes start env (.normal env'))
      (hloop : Stmt.Repeats test [body, update] env' r) :
      Executes (.forLoop start test update body span) env r

/-- The execution of statements one after another. -/
inductive Stmt.ExecutesAll : List Stmt → Env → Result → Prop where
  | nil {env : Env} : ExecutesAll [] env (.normal env)
  | stop {s : Stmt} {rest : List Stmt} {env : Env} {r : Result} (hs : Stmt.Executes s env r)
      (hr : r.IsAbrupt) : ExecutesAll (s :: rest) env r
  | cons {s : Stmt} {rest : List Stmt} {env env' : Env} {r : Result}
      (hs : Stmt.Executes s env (.normal env')) (hrest : ExecutesAll rest env' r) :
      ExecutesAll (s :: rest) env r

/-- The execution of statements again and again as long as a test is not 0. -/
inductive Stmt.Repeats : Expr → List Stmt → Env → Result → Prop where
  | fault {test : Expr} {body : List Stmt} {env : Env} {fault : Fault}
      (htest : test.Evaluates env (.error fault)) : Repeats test body env (.faulted fault)
  | done {test : Expr} {body : List Stmt} {env : Env} (htest : test.Evaluates env (.ok 0)) :
      Repeats test body env (.normal env)
  | stop {test : Expr} {body : List Stmt} {env : Env} {w : Int} {r : Result}
      (htest : test.Evaluates env (.ok w)) (hw : w ≠ 0)
      (hbody : Stmt.ExecutesAll body env r) (hr : r.IsAbrupt) : Repeats test body env r
  | again {test : Expr} {body : List Stmt} {env env' : Env} {w : Int} {r : Result}
      (htest : test.Evaluates env (.ok w)) (hw : w ≠ 0)
      (hbody : Stmt.ExecutesAll body env (.normal env')) (hrest : Repeats test body env' r) :
      Repeats test body env r

end

/-! ### Declared names -/

mutual

/-- The names that a statement declares, as often as it does. -/
def Stmt.declared : Stmt → List Text
  | .block body _ => declaredAll body
  | .whileLoop _ body _ => body.declared
  | .ifThen _ yes _ => yes.declared
  | .ifThenElse _ yes no _ => yes.declared ++ no.declared
  | .result .. => []
  | .declare name .. => [name]
  | .function .. => []
  | .assign .. => []
  | .forLoop start _ update body _ => start.declared ++ body.declared ++ update.declared

/-- The names that statements declare. -/
def Stmt.declaredAll : List Stmt → List Text
  | [] => []
  | s :: r => s.declared ++ declaredAll r

end

end Source

end StackMachine
