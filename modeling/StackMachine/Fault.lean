import StackMachine.Number.Shortest
import StackMachine.Operator

/-!
# Faults

The reasons for which a running program stops other than by halting, each with its code
and its message.
-/

namespace StackMachine

/-- The code by which a fault is known. -/
inductive FaultCode where
  | stackUnderflow
  | fetchRange
  | divZero
  | overflow
  | address
  | alloc
  | stepLimit
deriving DecidableEq, Repr, Inhabited

/-- The text of a fault code. -/
def FaultCode.toText : FaultCode → Text
  | stackUnderflow => "E_STACK_UNDERFLOW"
  | fetchRange => "E_FETCH_RANGE"
  | divZero => "E_DIV_ZERO"
  | overflow => "E_OVERFLOW"
  | address => "E_ADDRESS"
  | alloc => "E_ALLOC"
  | stepLimit => "E_STEP_LIMIT"

/-- The cause of a fault, with what its message mentions. -/
inductive Fault where
  | stackUnderflow
  | fetchRange (pc length : Nat)
  | divisionByZero
  | moduloByZero
  | overflow (operator : BinaryOperator ⊕ UnaryOperator)
  | address (word : Int) (limit : Nat)
  | allocation (words : Int) (offset limit : Nat)
  | stepLimit (limit : Nat)
deriving DecidableEq, Repr

namespace Fault

/-- The code of a fault. -/
def code : Fault → FaultCode
  | stackUnderflow => .stackUnderflow
  | fetchRange .. => .fetchRange
  | divisionByZero => .divZero
  | moduloByZero => .divZero
  | overflow _ => .overflow
  | address .. => .address
  | allocation .. => .alloc
  | stepLimit _ => .stepLimit

/-- The message of a fault. -/
def message : Fault → Text
  | stackUnderflow => "Operand stack is empty."
  | fetchRange pc length =>
    Text.concat ["Program counter ", (Number.ofNat pc).toText,
      " is outside the program (length ", Text.ofNat length, ")."]
  | divisionByZero => "Division by zero."
  | moduloByZero => "Modulo by zero."
  | overflow op =>
    Text.concat ["Integer overflow in '",
      op.elim BinaryOperator.mnemonic UnaryOperator.mnemonic, "'."]
  | address word limit =>
    Text.concat ["Address ", Text.ofInt word, " is outside variable memory (limit ",
      Text.ofNat limit, ")."]
  | allocation words offset limit =>
    Text.concat ["Cannot allocate ", Text.ofInt words, " words at heap offset ",
      Text.ofNat offset, " (limit ", Text.ofNat limit, ")."]
  | stepLimit limit => Text.concat ["Step limit of ", Text.ofNat limit, " reached."]

end Fault

end StackMachine
