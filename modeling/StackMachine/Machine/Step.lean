import StackMachine.Instruction
import StackMachine.Machine.Limits
import StackMachine.Word

/-!
# Steps of the machine

The state of a running machine and what each instruction does to it.  An instruction
takes its operands one by one and tests them in between, so that a fault leaves behind the
state in which it arose: the operands taken so far are gone, the memory and the heap are
as they were.

The stack may have any length here, and the count of the steps is exact however great it
is.  A list holds at most `Limits.greatestSize` values, and a number counts exactly up to
`Number.maxSafe` only: a run is meant to take no more steps than that, and how a stack can
outgrow a list is told in `Proofs.Machine.Soundness`.
-/

namespace StackMachine

/-- The state of a machine: the place of the next instruction, the stack with its top
first, the memory and the heap as far as they are in use, and the number of instructions
executed. -/
structure State where
  pc : Nat
  stack : List Int
  memory : Array Int
  heap : Array Int
  steps : Nat
deriving DecidableEq, Repr

/-- The state before the first instruction. -/
def State.initial : State := { pc := 0, stack := [], memory := #[], heap := #[], steps := 0 }

/-- What becomes of a machine after an instruction. -/
inductive Step where
  | running (s : State)
  | halted (s : State)
  | faulted (fault : Fault) (s : State)
deriving DecidableEq, Repr

/-- A region of words lengthened with zeros; a region that is long enough stays as it is. -/
def growTo (region : Array Int) (size : Nat) : Array Int :=
  region ++ Array.replicate (size - region.size) 0

namespace State

/-- The state with a word put on the stack. -/
@[inline] def push (w : Int) (s : State) : State := { s with stack := w :: s.stack }

/-- The top of the stack, which stays. -/
@[inline] def withTop (s : State) (next : Int → Step) : Step :=
  match s.stack with
  | [] => .faulted .stackUnderflow s
  | w :: _ => next w

/-- The top of the stack, which is taken. -/
@[inline] def withPop (s : State) (next : Int → State → Step) : Step :=
  match s.stack with
  | [] => .faulted .stackUnderflow s
  | w :: stack => next w { s with stack }

/-- The address that a word is, if it is in the memory. -/
@[inline] def withAddress (limits : Limits) (w : Int) (s : State) (next : Nat → Step) : Step :=
  if w < 0 ∨ (limits.memory : Int) ≤ w then .faulted (.address w limits.memory) s
  else next w.toNat

/-- The result of an operator on the stack. -/
@[inline] def pushResult (s : State) : Except Fault Int → Step
  | .ok w => .running (s.push w)
  | .error fault => .faulted fault s

/-- What an instruction does. -/
def execute (limits : Limits) (s : State) : Instruction Nat → Step
  | .loadc value => .running (s.push value)
  | .load =>
    s.withPop fun w s =>
      s.withAddress limits w fun a =>
        let memory := growTo s.memory (a + 1)
        .running (push (memory.getD a 0) { s with memory })
  | .store =>
    s.withPop fun w s =>
      s.withAddress limits w fun a =>
        s.withTop fun value =>
          .running { s with memory := (growTo s.memory (a + 1)).setIfInBounds a value }
  | .pop => s.withPop fun _ s => .running s
  | .new =>
    s.withPop fun words s =>
      let base := s.heap.size
      if words < 0 ∨ (limits.heap : Int) - base < words then
        .faulted (.allocation words base limits.heap) s
      else .running (push base { s with heap := growTo s.heap (base + words.toNat) })
  | .jump target => .running { s with pc := target }
  | .jumpz target =>
    s.withPop fun w s => .running (if w = 0 then { s with pc := target } else s)
  | .halt => .halted s
  | .binary op => s.withPop fun a s => s.withPop fun b s => s.pushResult (op.apply b a)
  | .unary op => s.withPop fun a s => s.pushResult (op.apply a)

end State

end StackMachine
