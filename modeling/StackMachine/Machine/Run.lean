import StackMachine.Machine.Step

/-!
# Runs of the machine

A run executes one instruction after another until the machine halts or faults.  It tells
an observer what happens: that it begins, the state before each instruction, and how it
ends.  A run may go on for ever, so it is followed for a number of steps and is undecided
if it has not ended by then.
-/

namespace StackMachine

/-- How a run ends: the machine halts, or the instruction at an index faults. -/
inductive Outcome where
  | halted
  | faulted (fault : Fault) (index : Nat)
deriving DecidableEq, Repr

/-- The word for the way in which a run ends. -/
def Outcome.status : Outcome → Text
  | halted => "halted"
  | faulted .. => "faulted"

/-- What an observer of a run is told. -/
inductive Event where
  /-- A run of a program of some instructions begins. -/
  | runStart (instructions : Nat)
  /-- The instruction at `pc` is about to be executed in a state of the stack and memory. -/
  | step (pc : Nat) (instruction : Instruction Nat) (stack : List Int) (memory : Array Int)
  /-- The run has ended after some steps. -/
  | runEnd (outcome : Outcome) (steps : Nat)
deriving DecidableEq, Repr

/-- A run that has ended: how, and in which state. -/
structure Finished where
  outcome : Outcome
  state : State
deriving DecidableEq, Repr

namespace State

/-- The next instruction, unless the limit of steps is reached or there is none. -/
def fetch (limits : Limits) (code : Array (Instruction Nat)) (s : State) :
    Except Fault (Instruction Nat) :=
  match limits.maxSteps.filter (· ≤ s.steps), code[s.pc]? with
  | some limit, _ => .error (.stepLimit limit)
  | none, some i => .ok i
  | none, none => .error (.fetchRange s.pc code.size)

/-- The state in which a fetched instruction is executed.  The count of the steps is exact; a
number counts them in the same way up to `Number.maxSafe`. -/
def advance (s : State) : State := { s with pc := s.pc + 1, steps := s.steps + 1 }

section

variable {m : Type → Type} [Monad m]

/-- The end of a run in a state, told to the observer. -/
@[inline] def finish (emit : Event → m Unit) (outcome : Outcome) (s : State) :
    m (Option Finished) := do
  emit (.runEnd outcome s.steps)
  return some ⟨outcome, s⟩

/-- The run from a state, followed for a number of steps. -/
@[specialize]
def runFrom (emit : Event → m Unit) (limits : Limits) (code : Array (Instruction Nat)) :
    Nat → State → m (Option Finished)
  | 0, _ => return none
  | fuel + 1, s =>
    match s.fetch limits code with
    | .error fault => finish emit (.faulted fault s.pc) s
    | .ok i => do
      let index := s.pc
      emit (.step index i s.stack s.memory)
      match s.advance.execute limits i with
      | .running s => runFrom emit limits code fuel s
      | .halted s => finish emit .halted s
      | .faulted fault s => finish emit (.faulted fault index) s

end

end State

/-- The run of code from the beginning, with an observer. -/
@[specialize]
def runCode {m : Type → Type} [Monad m] (emit : Event → m Unit) (limits : Limits) (code : Code)
    (fuel : Nat) : m (Option Finished) := do
  emit (.runStart code.length)
  State.runFrom emit limits code.toArray fuel .initial

end StackMachine
