import StackMachine.Machine

/-!
# The untyped machine

The untyped machine runs a program as it is given, without reading it first.  It looks at the
fields of an instruction when it executes it, puts on the stack whatever it finds there, and goes
wherever a jump says.  So it can go wrong: where an instruction is none, where something that is
not an integer serves as an operand, where there is no such place in any program, and where the
stack or a region would be longer than a list can be, which is `Limits.greatestSize`.
-/

namespace StackMachine

namespace Untyped

/-- What goes wrong other than by a fault. -/
inductive Wrong where
  /-- The instruction is not known. -/
  | instruction (d : Datum)
  /-- An operand of an operator, an address or a size is no integer. -/
  | operand (d : Datum)
  /-- The place of the next instruction is no integer, or negative. -/
  | place (d : Datum)
  /-- The stack would have more values than a list can have. -/
  | stack
  /-- A region would have more words than a list can have. -/
  | region (size : Nat)

/-- The state of an untyped machine, the stack with its top first. -/
structure State where
  pc : Datum
  stack : List Datum
  memory : Array Datum
  heap : Array Datum
  steps : Nat

/-- The state before the first instruction. -/
def State.initial : State :=
  { pc := .number (.ofNat 0), stack := [], memory := #[], heap := #[], steps := 0 }

/-- What becomes of an untyped machine after an instruction. -/
inductive Step where
  | running (s : State)
  | halted (s : State)
  | faulted (fault : Fault) (s : State)
  | wrong (w : Wrong)

/-- A value that has to be an integer. -/
def withInteger (d : Datum) (next : Int → Step) : Step :=
  match d with
  | .integer n => next n
  | d => .wrong (.operand d)

/-- A region lengthened with zeros. -/
def withRegion (region : Array Datum) (size : Nat) (next : Array Datum → Step) : Step :=
  if size ≤ Limits.greatestSize then
    next (region ++ Array.replicate (size - region.size) (.integer 0))
  else .wrong (.region size)

namespace State

/-- A value is put on the stack, if there is room for one more. -/
def push (d : Datum) (s : State) : Step :=
  if s.stack.length < Limits.greatestSize then .running { s with stack := d :: s.stack }
  else .wrong .stack

/-- The top of the stack, which stays.  A value that is absent counts as a missing one. -/
def withTop (s : State) (next : Datum → Step) : Step :=
  match s.stack with
  | [] => .faulted .stackUnderflow s
  | .absent :: _ => .faulted .stackUnderflow s
  | d :: _ => next d

/-- The top of the stack, which is taken. -/
def withPop (s : State) (next : Datum → State → Step) : Step :=
  s.withTop fun d => next d { s with stack := s.stack.tail }

/-- The address that a value is, if it is in the memory. -/
def withAddress (limits : Limits) (d : Datum) (s : State) (next : Nat → Step) : Step :=
  withInteger d fun w =>
    if w < 0 ∨ (limits.memory : Int) ≤ w then .faulted (.address w limits.memory) s
    else next w.toNat

/-- The result of an operator on the stack. -/
def pushResult (s : State) : Except Fault Int → Step
  | .ok w => s.push (.integer w)
  | .error fault => .faulted fault s

/-- What an instruction with an opcode does; its other fields are taken as they are. -/
def perform (limits : Limits) (s : State) (d : Datum) : Opcode → Step
  | .loadc => s.push (d.field "value")
  | .load =>
    s.withPop fun w s =>
      s.withAddress limits w fun a =>
        withRegion s.memory (a + 1) fun memory =>
          push (memory[a]?.getD .absent) { s with memory }
  | .store =>
    s.withPop fun w s =>
      s.withAddress limits w fun a =>
        s.withTop fun value =>
          withRegion s.memory (a + 1) fun memory =>
            .running { s with memory := memory.setIfInBounds a value }
  | .pop => s.withPop fun _ s => .running s
  | .new =>
    s.withPop fun w s =>
      withInteger w fun words =>
        let base := s.heap.size
        if words < 0 ∨ (limits.heap : Int) - base < words then
          .faulted (.allocation words base limits.heap) s
        else
          withRegion s.heap (base + words.toNat) fun heap =>
            push (.integer base) { s with heap }
  | .jump => .running { s with pc := d.field "target" }
  | .jumpz =>
    s.withPop fun w s =>
      match w with
      | .integer 0 => .running { s with pc := d.field "target" }
      | _ => .running s
  | .halt => .halted s
  | .binary op =>
    s.withPop fun a s =>
      s.withPop fun b s =>
        withInteger b fun lhs => withInteger a fun rhs => s.pushResult (op.apply lhs rhs)
  | .unary op => s.withPop fun a s => withInteger a fun w => s.pushResult (op.apply w)

/-- What an instruction does. -/
def execute (limits : Limits) (s : State) (d : Datum) : Step :=
  match d.field "op" with
  | .string name =>
    match Opcode.ofMnemonic? name with
    | some opcode => s.perform limits d opcode
    | none => .wrong (.instruction d)
  | _ => .wrong (.instruction d)

/-- The position that the place of the next instruction is. -/
def withPosition (s : State) (next : Nat → Step) : Step :=
  match s.pc with
  | .number x =>
    match x.toIndex? with
    | some n => next n
    | none => .wrong (.place s.pc)
  | _ => .wrong (.place s.pc)

/-- One cycle: the next instruction is fetched and executed. -/
def cycle (limits : Limits) (program : List Datum) (s : State) : Step :=
  match limits.maxSteps.filter (· ≤ s.steps) with
  | some limit => .faulted (.stepLimit limit) s
  | none =>
    s.withPosition fun n =>
      match program[n]? with
      | some d =>
        execute limits { s with pc := .number (.ofNat (n + 1)), steps := s.steps + 1 } d
      | none => .faulted (.fetchRange n program.length) s

end State

/-- What is known of a run: the state from which it goes on, the state in which it has halted, the
fault with the place of its instruction and the state that it leaves, or what has gone wrong. -/
inductive Progress where
  | running (s : State)
  | halted (s : State)
  | faulted (fault : Fault) (index : Datum) (s : State)
  | wrong (w : Wrong)

/-- The progress of a run from a state after a number of cycles. -/
def proceed (limits : Limits) (program : List Datum) : Nat → State → Progress
  | 0, s => .running s
  | n + 1, s =>
    match s.cycle limits program with
    | .running t => proceed limits program n t
    | .halted t => .halted t
    | .faulted fault t => .faulted fault s.pc t
    | .wrong w => .wrong w

section

variable {limits : Limits} {program : List Datum} {u : State}

theorem proceed_of_running {k : Nat} {t : State} (h : proceed limits program k u = .running t)
    (n : Nat) :
  proceed limits program (k + n) u = proceed limits program n t
  := by
  induction k generalizing u with
  | zero =>
    cases h
    rw [Nat.zero_add]
  | succ k ih =>
    rw [proceed] at h
    rw [Nat.succ_add, proceed]
    generalize u.cycle limits program = step at h ⊢
    cases step with
    | running v => apply ih h
    | halted | faulted | wrong => cases h

/-- A run that does not go on stays as it is. -/
theorem proceed_of_ended {n k : Nat} (h : ∀ t, proceed limits program n u ≠ .running t)
    (hle : n ≤ k) :
  proceed limits program k u = proceed limits program n u
  := by
  induction n generalizing k u with
  | zero => cases h u rfl
  | succ n ih =>
    cases k with
    | zero => cases hle
    | succ k =>
      rw [proceed] at h
      rw [proceed, proceed]
      generalize u.cycle limits program = step at h ⊢
      cases step with
      | running v => apply ih h (Nat.le_of_succ_le_succ hle)
      | halted | faulted | wrong => rfl

end

end Untyped

end StackMachine
