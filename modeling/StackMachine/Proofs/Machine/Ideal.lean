import Mathlib.Logic.Function.Basic
import StackMachine.Proofs.Machine.Effect

/-!
# The ideal machine

The memory of the ideal machine is a map from addresses to words, all of them 0 at first,
with a mark above the addresses that have been used, and its heap is a count of the words
that have been allocated.  The machine and the ideal machine run in lock step: whatever the
program, the limits and the number of cycles, they are at the same place with the same
stack, or they have ended in the same way.
-/

namespace StackMachine

/-! ### States and steps of the ideal machine -/

/-- A state of the ideal machine. -/
structure Ideal where
  pc : Nat
  stack : List Int
  memory : Nat → Int
  mark : Nat
  heap : Nat
  steps : Nat

namespace Ideal

/-- The state before the first instruction. -/
def initial : Ideal :=
  { pc := 0, stack := [], memory := fun _ => 0, mark := 0, heap := 0, steps := 0 }

/-- What is known of a run of the ideal machine: the state from which it goes on, or how and
in which state it has ended. -/
abbrev Progress := Ideal ⊕ Outcome × Ideal

/-- The end of a run at a fault of the instruction at an index. -/
def fail (index : Nat) (fault : Fault) (s : Ideal) : Progress :=
  .inr (.faulted fault index, s)

/-- What the instruction at an index does. -/
def execute (limits : Limits) (index : Nat) (i : Instruction Nat) (s : Ideal) : Progress :=
  match i, s.stack with
  | .loadc value, stack => .inl { s with stack := value :: stack }
  | .load, w :: r =>
    if 0 ≤ w ∧ w < limits.memory then
      .inl { s with stack := s.memory w.toNat :: r, mark := max s.mark (w.toNat + 1) }
    else fail index (.address w limits.memory) { s with stack := r }
  | .store, w :: r =>
    if 0 ≤ w ∧ w < limits.memory then
      match r with
      | [] => fail index .stackUnderflow { s with stack := [] }
      | value :: _ =>
        .inl { s with
          stack := r
          memory := Function.update s.memory w.toNat value
          mark := max s.mark (w.toNat + 1) }
    else fail index (.address w limits.memory) { s with stack := r }
  | .pop, _ :: r => .inl { s with stack := r }
  | .new, w :: r =>
    if 0 ≤ w ∧ s.heap + w ≤ limits.heap then
      .inl { s with stack := (s.heap : Int) :: r, heap := s.heap + w.toNat }
    else fail index (.allocation w s.heap limits.heap) { s with stack := r }
  | .jump target, _ => .inl { s with pc := target }
  | .jumpz target, w :: r =>
    .inl { s with stack := r, pc := if w = 0 then target else s.pc }
  | .halt, _ => .inr (.halted, s)
  | .binary op, a :: b :: r =>
    match op.apply b a with
    | .ok w => .inl { s with stack := w :: r }
    | .error fault => fail index fault { s with stack := r }
  | .unary op, a :: r =>
    match op.apply a with
    | .ok w => .inl { s with stack := w :: r }
    | .error fault => fail index fault { s with stack := r }
  | _, _ => fail index .stackUnderflow { s with stack := [] }

section

variable (limits : Limits) (code : Array (Instruction Nat))

/-- One cycle: the limit of steps is tested, then the next instruction is executed. -/
def cycle (s : Ideal) : Progress :=
  match limits.maxSteps.filter (· ≤ s.steps), code[s.pc]? with
  | some limit, _ => fail s.pc (.stepLimit limit) s
  | none, none => fail s.pc (.fetchRange s.pc code.size) s
  | none, some i => execute limits s.pc i { s with pc := s.pc + 1, steps := s.steps + 1 }

/-- The progress of a run from a state after a number of cycles. -/
def proceed : Nat → Ideal → Progress
  | 0, s => .inl s
  | n + 1, s =>
    match s.cycle limits code with
    | .inl t => proceed n t
    | .inr e => .inr e

end

end Ideal

/-! ### The relation between the machines -/

/-- A state that represents a state of the ideal machine.  The memory holds the ideal memory
up to the mark, beyond which the ideal memory is 0; the heap holds zeros. -/
structure State.Represents (s : State) (t : Ideal) : Prop where
  pc : s.pc = t.pc
  stack : s.stack = t.stack
  memory : ∀ (a : Nat) (h : a < s.memory.size), s.memory[a] = t.memory a
  beyond : ∀ a, s.memory.size ≤ a → t.memory a = 0
  mark : s.memory.size = t.mark
  heap : s.heap = Array.replicate t.heap 0
  steps : s.steps = t.steps

/-- The progress of a run that agrees with that of the ideal machine: both go on from states
of which one represents the other, or both have ended, in the same way and in such states. -/
inductive Progress.Agrees : Progress → Ideal.Progress → Prop where
  | running {s : State} {t : Ideal} (h : s.Represents t) : Agrees (.inl s) (.inl t)
  | ended {s : State} {t : Ideal} (outcome : Outcome) (h : s.Represents t) :
      Agrees (.inr ⟨outcome, s⟩) (.inr (outcome, t))

namespace State

/-! ### Single cycles -/

variable {limits : Limits}

/-- Wherever it is read, the memory holds what the ideal memory does. -/
theorem Represents.getD {s : State} {t : Ideal} (h : s.Represents t) (a : Nat) :
  s.memory.getD a 0 = t.memory a
  := by
  rw [Array.getD]
  split
  · next ha => apply h.memory a ha
  · next ha =>
    symm
    apply h.beyond a (Nat.not_lt.mp ha)

/-- A memory that is read as the ideal memory, as far as the mark, represents it. -/
theorem Represents.ofMemory {s : State} {t : Ideal} (h : s.Represents t) {stack : List Int}
    {region : Array Int} {memory : Nat → Int} {mark : Nat}
    (hmemory : ∀ a, region.getD a 0 = memory a) (hmark : region.size = mark) :
  Represents { s with stack, memory := region } { t with stack, memory, mark }
  := by
  constructor
  · apply h.pc
  · rfl
  · intro a (ha : a < region.size)
    have := hmemory a
    rw [Array.getD, dif_pos ha] at this
    apply this
  · intro a (ha : region.size ≤ a)
    have := hmemory a
    rw [Array.getD, dif_neg (Nat.not_lt.mpr ha)] at this
    apply this.symm
  · apply hmark
  · apply h.heap
  · apply h.steps

/-- Replacing both stacks by one keeps the relation. -/
theorem Represents.withStack {s : State} {t : Ideal} (h : s.Represents t) (stack : List Int) :
  Represents { s with stack } { t with stack }
  := { h with stack := rfl }

section

variable {s : State} {t : Ideal} (h : s.Represents t) (index : Nat)

include h

/-- A fault keeps the memory and the heap. -/
theorem Represents.fail (fault : Fault) (stack : List Int) :
  Progress.Agrees (Step.progress index (.faulted fault { s with stack }))
    (Ideal.fail index fault { t with stack })
  := Progress.Agrees.ended (.faulted fault index) (h.withStack stack)

/-- Most instructions keep the memory and the heap, too. -/
theorem Represents.run (stack : List Int) :
  Progress.Agrees (Step.progress index (.running { s with stack })) (.inl { t with stack })
  := Progress.Agrees.running (h.withStack stack)

theorem Represents.underflow (hs : s.stack = []) :
  Progress.Agrees (Step.progress index (.faulted .stackUnderflow s))
    (Ideal.fail index .stackUnderflow { t with stack := [] })
  := by
  rw [← hs]
  apply h.fail

/-- A word is loaded from the same address, and the memory grows up to it. -/
theorem Represents.execute_load :
  ((s.execute limits .load).progress index).Agrees (t.execute limits index .load)
  := by
  rw [Ideal.execute.eq_def, ← h.stack, State.execute, withPop]
  cases hs : s.stack with
  | nil => apply h.underflow index hs
  | cons w r =>
    simp only [withAddress]
    by_cases hw : 0 ≤ w ∧ w < limits.memory
    · rw [if_neg (by omega), if_pos hw, ← h.getD, ← h.mark, ← size_growTo]
      apply Progress.Agrees.running
      rw [← getD_growTo s.memory (w.toNat + 1)]
      apply h.ofMemory
      · intro a
        rw [getD_growTo]
        apply h.getD
      · rfl
    · rw [if_pos (by omega), if_neg hw]
      apply h.fail

/-- A word is stored at the same address, and the memory grows up to it. -/
theorem Represents.execute_store :
  ((s.execute limits .store).progress index).Agrees (t.execute limits index .store)
  := by
  rw [Ideal.execute.eq_def, ← h.stack, State.execute, withPop]
  cases hs : s.stack with
  | nil => apply h.underflow index hs
  | cons w r =>
    simp only [withAddress]
    by_cases hw : 0 ≤ w ∧ w < limits.memory
    · rw [if_neg (by omega), if_pos hw]
      cases r with
      | nil => apply h.fail
      | cons value r =>
        apply Progress.Agrees.running
        apply h.ofMemory
        · intro a
          rw [getD_setIfInBounds_growTo, Function.update_apply, h.getD]
        · rw [Array.size_setIfInBounds, size_growTo, h.mark]
    · rw [if_pos (by omega), if_neg hw]
      apply h.fail

/-- Words are allocated behind the same ones. -/
theorem Represents.execute_new :
  ((s.execute limits .new).progress index).Agrees (t.execute limits index .new)
  := by
  rw [Ideal.execute.eq_def, ← h.stack, State.execute, withPop]
  cases hs : s.stack with
  | nil => apply h.underflow index hs
  | cons w r =>
    have hsize : s.heap.size = t.heap := by
      rw [h.heap, Array.size_replicate]
    simp only [hsize]
    by_cases hw : 0 ≤ w ∧ t.heap + w ≤ limits.heap
    · rw [if_neg (by omega), if_pos hw, h.heap, growTo_replicate]
      apply Progress.Agrees.running
      exact { h with stack := rfl, heap := rfl }
    · rw [if_pos (by omega), if_neg hw]
      apply h.fail

/-- An instruction does the same to a state and to the ideal state that it represents. -/
theorem Represents.execute (i : Instruction Nat) :
  ((s.execute limits i).progress index).Agrees (t.execute limits index i)
  := by
  cases i with
  | load => apply h.execute_load
  | store => apply h.execute_store
  | new => apply h.execute_new
  | loadc value =>
    rw [Ideal.execute.eq_def, ← h.stack]
    apply h.run
  | pop =>
    rw [Ideal.execute.eq_def, ← h.stack, State.execute, withPop]
    cases hs : s.stack with
    | nil => apply h.underflow index hs
    | cons w r => apply h.run
  | jump target =>
    rw [Ideal.execute.eq_def, ← h.stack]
    apply Progress.Agrees.running
    exact { h with pc := rfl, stack := rfl }
  | jumpz target =>
    rw [Ideal.execute.eq_def, ← h.stack, State.execute, withPop]
    cases hs : s.stack with
    | nil => apply h.underflow index hs
    | cons w r =>
      apply Progress.Agrees.running
      by_cases hw : w = 0
      · rw [if_pos hw, if_pos hw]
        exact { h with pc := rfl, stack := rfl }
      · rw [if_neg hw, if_neg hw]
        apply h.withStack
  | halt =>
    rw [Ideal.execute.eq_def, ← h.stack]
    apply Progress.Agrees.ended .halted h
  | binary op =>
    rw [Ideal.execute.eq_def, ← h.stack, State.execute, withPop]
    cases hs : s.stack with
    | nil => apply h.underflow index hs
    | cons a r =>
      cases r with
      | nil => apply h.fail
      | cons b r =>
        simp only [withPop]
        cases op.apply b a with
        | error fault => apply h.fail
        | ok w => apply h.run
  | unary op =>
    rw [Ideal.execute.eq_def, ← h.stack, State.execute, withPop]
    cases hs : s.stack with
    | nil => apply h.underflow index hs
    | cons a r =>
      simp only
      cases op.apply a with
      | error fault => apply h.fail
      | ok w => apply h.run

end

end State

end StackMachine
