import StackMachine.Proofs.Machine.Effect

/-!
# Causes of faults

Why a cycle faults.  Nothing is fetched because the limit of steps is reached or there is no
instruction; or the instruction that is fetched finds too few words on the stack, an address
outside the memory or no room in the heap, or its operator faults.
-/

namespace StackMachine

/-- How many words an instruction needs on the stack. -/
def Instruction.needs {τ : Type} : Instruction τ → Nat
  | loadc _ => 0
  | load => 1
  | store => 2
  | pop => 1
  | new => 1
  | jump _ => 0
  | jumpz _ => 1
  | halt => 0
  | binary _ => 2
  | unary _ => 1

/-! ### Operators -/

/-- A fault of arithmetic. -/
def FaultCode.IsArithmetic (c : FaultCode) : Prop := c = .divZero ∨ c = .overflow

theorem Word.isArithmetic_of_checked {op : BinaryOperator ⊕ UnaryOperator} {n : Int}
    {fault : Fault} (h : checked op n = .error fault) :
  fault.code.IsArithmetic
  := by
  rw [checked] at h
  split at h
  · cases h
  · cases h
    right
    rfl

theorem BinaryOperator.isArithmetic_apply {op : BinaryOperator} {a b : Int} {fault : Fault}
    (h : op.apply a b = .error fault) :
  fault.code.IsArithmetic
  := by
  cases op with
  | add | sub | mul => apply Word.isArithmetic_of_checked h
  | div =>
    rw [apply] at h
    split at h
    · cases h
      left
      rfl
    · apply Word.isArithmetic_of_checked h
  | mod =>
    rw [apply] at h
    split at h
    · cases h
      left
      rfl
    · split at h
      · cases h
        right
        rfl
      · cases h
  | and | or | eq | neq | lt | le | gt | ge => cases h

theorem UnaryOperator.isArithmetic_apply {op : UnaryOperator} {a : Int} {fault : Fault}
    (h : op.apply a = .error fault) :
  fault.code.IsArithmetic
  := by
  cases op with
  | neg => apply Word.isArithmetic_of_checked h
  | not => cases h

namespace State

/-! ### Instructions -/

/-- The cause of a fault of an instruction in a state. -/
inductive Cause (limits : Limits) (s : State) : Instruction Nat → Fault → Prop where
  | underflow {i : Instruction Nat} (h : s.stack.length < i.needs) :
      Cause limits s i .stackUnderflow
  | address {i : Instruction Nat} {w : Int} {r : List Int} (hi : i = .load ∨ i = .store)
      (hs : s.stack = w :: r) (hw : w < 0 ∨ (limits.memory : Int) ≤ w) :
      Cause limits s i (.address w limits.memory)
  | allocation {w : Int} {r : List Int} (hs : s.stack = w :: r) :
      Cause limits s .new (.allocation w s.heap.size limits.heap)
  | arithmetic {i : Instruction Nat} {fault : Fault} (h : fault.code.IsArithmetic) :
      Cause limits s i fault

variable {limits : Limits} {s t : State} {fault : Fault}

/-- An instruction that takes a word needs one. -/
theorem needs_pos {i : Instruction Nat} (hi : 0 < i.opcode.pops) :
  0 < i.needs
  := by
  cases i with
  | loadc | jump | halt => cases hi
  | load | store | pop | new | jumpz | binary | unary => simp [Instruction.needs]

/-- An instruction faults for one of these causes. -/
theorem cause_of_execute {i : Instruction Nat} (h : s.execute limits i = .faulted fault t) :
  Cause limits s i fault
  := by
  cases failure_of_execute h with
  | empty hi hs =>
    apply Cause.underflow
    rw [hs]
    apply needs_pos hi
  | lacksOperand hs | lacksValue hs =>
    apply Cause.underflow
    rw [hs]
    exact Nat.one_lt_two
  | address hi hs hw => apply Cause.address hi hs hw
  | allocation hs => apply Cause.allocation hs
  | binary _ happly => apply Cause.arithmetic (BinaryOperator.isArithmetic_apply happly)
  | unary _ happly => apply Cause.arithmetic (UnaryOperator.isArithmetic_apply happly)

/-- An instruction does not fault for want of an instruction or of steps. -/
theorem Cause.code_ne {i : Instruction Nat} (h : Cause limits s i fault) :
  fault.code ≠ .fetchRange ∧ fault.code ≠ .stepLimit
  := by
  cases h with
  | underflow | address | allocation => exact ⟨nofun, nofun⟩
  | arithmetic h =>
    rcases h with h | h
    · rw [h]
      exact ⟨nofun, nofun⟩
    · rw [h]
      exact ⟨nofun, nofun⟩

/-! ### Cycles -/

variable {code : Array (Instruction Nat)}

/-- Nothing is fetched if the limit of steps is reached or there is no instruction. -/
theorem fetch_eq_error (h : s.fetch limits code = .error fault) :
  (∃ limit, limits.maxSteps = some limit ∧ limit ≤ s.steps ∧ fault = .stepLimit limit)
    ∨ code[s.pc]? = none ∧ fault = .fetchRange s.pc code.size
  := by
  rw [fetch] at h
  split at h
  · next limit hlimit =>
    cases h
    obtain ⟨hsome, hle⟩ := Option.filter_eq_some_iff.mp hlimit
    left
    exact ⟨limit, hsome, of_decide_eq_true hle, rfl⟩
  · cases h
  · next hcode =>
    cases h
    right
    exact ⟨hcode, rfl⟩

/-- A cycle faults because nothing is fetched, which changes nothing, or because what is
fetched does. -/
theorem cause_of_cycle (h : s.cycle limits code = .faulted fault t) :
  s.fetch limits code = .error fault ∧ t = s
    ∨ ∃ i, s.fetch limits code = .ok i ∧ Cause limits s.advance i fault
  := by
  cases hi : s.fetch limits code with
  | error e =>
    rw [cycle_of_fetch_error hi] at h
    cases h
    left
    exact ⟨rfl, rfl⟩
  | ok i =>
    rw [cycle_of_fetch hi] at h
    right
    exact ⟨i, rfl, cause_of_execute h⟩

end State

end StackMachine
