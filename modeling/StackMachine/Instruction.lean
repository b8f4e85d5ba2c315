import StackMachine.Number.Shortest
import StackMachine.Opcode

/-!
# Instructions

An instruction is an opcode with its immediate.  The type of jump targets is a parameter:
a program that was read or built by hand jumps to numbers, and code that can be run jumps
to positions.
-/

namespace StackMachine

/-- An instruction whose jumps go to targets of type `τ`. -/
inductive Instruction (τ : Type) where
  | loadc (value : Int)
  | load
  | store
  | pop
  | new
  | jump (target : τ)
  | jumpz (target : τ)
  | halt
  | binary (op : BinaryOperator)
  | unary (op : UnaryOperator)
deriving DecidableEq, Repr

/-- Instructions as they are written, with any number as a jump target. -/
abbrev Program := List (Instruction Number)

/-- Instructions that can be run, with positions as jump targets. -/
abbrev Code := List (Instruction Nat)

namespace Instruction

/-- The instruction with every jump target replaced by its image. -/
def map {τ υ : Type} (f : τ → υ) : Instruction τ → Instruction υ
  | loadc value => loadc value
  | load => load
  | store => store
  | pop => pop
  | new => new
  | jump target => jump (f target)
  | jumpz target => jumpz (f target)
  | halt => halt
  | binary op => binary op
  | unary op => unary op

/-- The opcode of an instruction. -/
def opcode {τ : Type} : Instruction τ → Opcode
  | loadc _ => .loadc
  | load => .load
  | store => .store
  | pop => .pop
  | new => .new
  | jump _ => .jump
  | jumpz _ => .jumpz
  | halt => .halt
  | binary op => .binary op
  | unary op => .unary op

/-- The target of a jump. -/
def target? {τ : Type} : Instruction τ → Option τ
  | jump target => some target
  | jumpz target => some target
  | _ => none

/-- The instruction of an opcode that takes no immediate. -/
def ofNullary? {τ : Type} : Opcode → Option (Instruction τ)
  | .load => some load
  | .store => some store
  | .pop => some pop
  | .new => some new
  | .halt => some halt
  | .binary op => some (binary op)
  | .unary op => some (unary op)
  | _ => none

/-- An instruction on one line: its name, and after a blank its immediate. -/
def toText : Instruction Number → Text
  | loadc value => Text.concat ["loadc ", Text.ofInt value]
  | jump target => Text.concat ["jump ", target.toText]
  | jumpz target => Text.concat ["jumpz ", target.toText]
  | i => i.opcode.mnemonic

end Instruction

/-- Code as a program: positions are numbers. -/
def Code.toProgram (code : Code) : Program := code.map (·.map Number.ofNat)

end StackMachine
