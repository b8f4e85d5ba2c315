import StackMachine.Text

/-!
# Operators on words

The operators with two operands and those with one, and the names by which instructions
are written with them.
-/

namespace StackMachine

/-- The operators with two operands. -/
inductive BinaryOperator where
  | add | sub | mul | div | mod
  | and | or
  | eq | neq | lt | le | gt | ge
deriving DecidableEq, Repr, Inhabited

/-- The operators with one operand. -/
inductive UnaryOperator where
  | neg | not
deriving DecidableEq, Repr, Inhabited

namespace BinaryOperator

/-- Every operator with two operands. -/
def all : List BinaryOperator :=
  [add, sub, mul, div, mod, and, or, eq, neq, lt, le, gt, ge]

/-- The name of an operator. -/
def mnemonic : BinaryOperator → Text
  | add => "add"
  | sub => "sub"
  | mul => "mul"
  | div => "div"
  | mod => "mod"
  | and => "and"
  | or => "or"
  | eq => "eq"
  | neq => "neq"
  | lt => "lt"
  | le => "le"
  | gt => "gt"
  | ge => "ge"

/-- The operator of a name. -/
def ofMnemonic? (t : Text) : Option BinaryOperator := all.find? (·.mnemonic == t)

end BinaryOperator

namespace UnaryOperator

/-- Every operator with one operand. -/
def all : List UnaryOperator := [neg, not]

/-- The name of an operator. -/
def mnemonic : UnaryOperator → Text
  | neg => "neg"
  | not => "not"

/-- The operator of a name. -/
def ofMnemonic? (t : Text) : Option UnaryOperator := all.find? (·.mnemonic == t)

end UnaryOperator

end StackMachine
