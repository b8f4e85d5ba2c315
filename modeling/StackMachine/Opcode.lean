import StackMachine.Operator

/-!
# Opcodes

The operations of the machine and the table that describes them: the name of each, the
immediate that is written after it, and how many words it takes from and leaves on the
stack.
-/

namespace StackMachine

/-- The operations of the machine. -/
inductive Opcode where
  | loadc | load | store | pop | new | jump | jumpz | halt
  | binary (op : BinaryOperator)
  | unary (op : UnaryOperator)
deriving DecidableEq, Repr, Inhabited

/-- What is written after a name: a constant, a place to jump to, or nothing. -/
inductive Immediate where
  | word | target | none
deriving DecidableEq, Repr, Inhabited

/-- The text of a kind of immediate. -/
def Immediate.toText : Immediate → Text
  | word => "word"
  | target => "target"
  | none => "none"

namespace Opcode

/-- Every opcode, in the order of the table. -/
def all : List Opcode :=
  [loadc, load, store, pop, new, jump, jumpz, halt]
    ++ BinaryOperator.all.map binary ++ UnaryOperator.all.map unary

/-- The name of an opcode. -/
def mnemonic : Opcode → Text
  | loadc => "loadc"
  | load => "load"
  | store => "store"
  | pop => "pop"
  | new => "new"
  | jump => "jump"
  | jumpz => "jumpz"
  | halt => "halt"
  | binary op => op.mnemonic
  | unary op => op.mnemonic

/-- The opcode of a name. -/
def ofMnemonic? (t : Text) : Option Opcode := all.find? (·.mnemonic == t)

/-- What is written after the name of an opcode. -/
def immediate : Opcode → Immediate
  | loadc => .word
  | jump => .target
  | jumpz => .target
  | _ => .none

/-- How many words an opcode takes from the stack. -/
def pops : Opcode → Nat
  | loadc => 0
  | load => 1
  | store => 1
  | pop => 1
  | new => 1
  | jump => 0
  | jumpz => 1
  | halt => 0
  | binary _ => 2
  | unary _ => 1

/-- How many words an opcode leaves on the stack. -/
def pushes : Opcode → Nat
  | loadc => 1
  | load => 1
  | store => 0
  | pop => 0
  | new => 1
  | jump => 0
  | jumpz => 0
  | halt => 0
  | binary _ => 1
  | unary _ => 1

/-- What an opcode does, in a few words; `a` is the top of the stack and `b` the word
under it. -/
def summary : Opcode → Text
  | loadc => "push a constant"
  | load => "push memory[address]"
  | store => "memory[address] := top, top stays"
  | pop => "discard the top"
  | new => "allocate a zeroed heap block, push its base"
  | jump => "continue at target"
  | jumpz => "continue at target if the popped value is 0"
  | halt => "stop successfully"
  | binary .add => "b + a"
  | binary .sub => "b - a"
  | binary .mul => "b * a"
  | binary .div => "b / a, truncated"
  | binary .mod => "b % a"
  | binary .and => "b && a"
  | binary .or => "b || a"
  | binary .eq => "b == a"
  | binary .neq => "b != a"
  | binary .lt => "b < a"
  | binary .le => "b <= a"
  | binary .gt => "b > a"
  | binary .ge => "b >= a"
  | unary .neg => "-a"
  | unary .not => "!a"

end Opcode

end StackMachine
