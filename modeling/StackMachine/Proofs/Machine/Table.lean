import StackMachine.Proofs.Machine.Cause
import StackMachine.Proofs.Structure

/-!
# What the table of opcodes tells

The table tells how many words an opcode takes from the stack and how many it leaves there.  These
are the numbers by which an instruction changes the stack, and what it takes is taken also if it
faults.  A fault changes nothing else, but that the instruction has been counted and passed.
-/

namespace StackMachine

/-- What the operators fault with is not that a word is missing. -/
theorem FaultCode.IsArithmetic.ne_stackUnderflow {c : FaultCode} (h : c.IsArithmetic) :
  c ≠ .stackUnderflow
  := by
  rcases h with rfl | rfl <;> exact nofun

namespace State

variable {limits : Limits} {i : Instruction Nat} {s t : State} {fault : Fault}

/-! ### Effects -/

/-- Words are exchanged on the top of a stack, so many against so many. -/
def Exchanges (pops pushes : Nat) (before after : List Int) : Prop :=
  pops ≤ before.length ∧ ∃ ws, ws.length = pushes ∧ after = ws ++ before.drop pops

/-- Words on the top of a stack are exchanged for others. -/
theorem exchanges_append (vs ws r : List Int) :
  Exchanges vs.length ws.length (vs ++ r) (ws ++ r)
  := by
  constructor
  · rw [List.length_append]
    apply Nat.le_add_right
  · use ws, rfl
    rw [List.drop_left]

/-- An instruction that has an effect exchanges as many words as the table tells. -/
theorem Effect.exchanges (h : Effect limits i s t) :
  Exchanges i.opcode.pops i.opcode.pushes s.stack t.stack
  := by
  cases h with
  | loadc value => exact exchanges_append [] [value] s.stack
  | @load _ a r hs =>
    rw [hs]
    exact exchanges_append [_] [_] r
  | @store _ a w r hs =>
    rw [hs]
    exact exchanges_append [_] [] (w :: r)
  | @pop _ w r hs =>
    rw [hs]
    exact exchanges_append [w] [] r
  | @new _ n r hs =>
    rw [hs]
    exact exchanges_append [_] [_] r
  | jump => exact exchanges_append [] [] s.stack
  | @jumpzTaken _ r _ hs =>
    rw [hs]
    exact exchanges_append [_] [] r
  | @jumpzPassed _ w r _ hs =>
    rw [hs]
    exact exchanges_append [w] [] r
  | @binary _ op a b w r hs =>
    rw [hs]
    exact exchanges_append [a, b] [w] r
  | @unary _ op a w r hs =>
    rw [hs]
    exact exchanges_append [a] [w] r

/-- An instruction that does not fault exchanges as many words as the table tells. -/
theorem exchanges_of_execute
    (h : s.execute limits i = .running t ∨ s.execute limits i = .halted t) :
  Exchanges i.opcode.pops i.opcode.pushes s.stack t.stack
  := by
  rcases h with h | h
  · exact (effect_of_execute h).exchanges
  · obtain ⟨rfl, rfl⟩ := execute_eq_halted_iff.mp h
    exact exchanges_append [] [] t.stack

/-! ### Failures -/

/-- Of the table only the operators with two operands take more than one word. -/
theorem lt_pops {n : Nat} (h : n + 1 < i.opcode.pops) :
  n = 0 ∧ ∃ op, i = .binary op
  := by
  cases i with
  | binary op =>
    have h : n + 1 < 2 := h
    exact ⟨by omega, op, rfl⟩
  | _ => simp [Instruction.opcode, Opcode.pops] at h

/-- A word is missing if there are fewer than the table tells, or if `store` finds an address and
nothing to store. -/
theorem underflows_iff :
  (∃ fault t, s.execute limits i = .faulted fault t ∧ fault.code = .stackUnderflow)
    ↔ s.stack.length < i.opcode.pops
      ∨ i = .store ∧ ∃ a : Nat, s.stack = [(a : Int)] ∧ a < limits.memory
  := by
  constructor
  · rintro ⟨fault, t, h, hcode⟩
    cases failure_of_execute h with
    | empty hi hs =>
      left
      rwa [hs]
    | lacksOperand hs =>
      left
      rw [hs]
      exact Nat.one_lt_two
    | @lacksValue _ a hs ha => exact .inr ⟨rfl, a, hs, ha⟩
    | address | allocation => cases hcode
    | binary _ happly => cases (BinaryOperator.isArithmetic_apply happly).ne_stackUnderflow hcode
    | unary _ happly => cases (UnaryOperator.isArithmetic_apply happly).ne_stackUnderflow hcode
  · rintro (h | ⟨rfl, a, hs, ha⟩)
    · cases hs : s.stack with
      | nil =>
        rw [hs] at h
        exact ⟨_, _, execute_of_empty h hs, rfl⟩
      | cons w r =>
        rw [hs, List.length_cons] at h
        obtain ⟨hr, op, rfl⟩ := lt_pops h
        rw [List.length_eq_zero_iff.mp hr] at hs
        exact ⟨_, _, (Failure.lacksOperand hs).execute, rfl⟩
    · exact ⟨_, _, (Failure.lacksValue hs ha).execute, rfl⟩

/-- The table of opcodes tells how every instruction changes the stack: when a word is missing, and
which words stay if it does not fault. -/
theorem execute_as_tabulated (limits : Limits) (s : State) (i : Instruction Nat) :
  ((∃ fault t, s.execute limits i = .faulted fault t ∧ fault.code = .stackUnderflow)
      ↔ s.stack.length < i.opcode.pops
        ∨ i = .store ∧ ∃ a : Nat, s.stack = [(a : Int)] ∧ a < limits.memory)
    ∧ ∀ t, s.execute limits i = .running t ∨ s.execute limits i = .halted t →
      i.opcode.pops ≤ s.stack.length
        ∧ ∃ ws, ws.length = i.opcode.pushes ∧ t.stack = ws ++ s.stack.drop i.opcode.pops
  := ⟨underflows_iff, fun _ => exchanges_of_execute⟩

/-- The one word on the stack is an address for `store`, and then there is nothing to store; with
another word under it, this one stays. -/
theorem execute_as_tabulated_store :
  (∃ fault t, (initial.push 0).execute ⟨none, 1, 0⟩ .store = .faulted fault t
      ∧ fault.code = .stackUnderflow)
    ∧ ∃ t, ((initial.push 5).push 0).execute ⟨none, 1, 0⟩ .store = .running t
      ∧ ∃ ws, ws.length = 0 ∧ t.stack = ws ++ [5]
  := by
  constructor
  · apply (execute_as_tabulated _ _ _).1.mpr
    exact .inr ⟨rfl, 0, rfl, Nat.one_pos⟩
  · obtain ⟨-, hstack⟩ :=
      (execute_as_tabulated ⟨none, 1, 0⟩ ((initial.push 5).push 0) .store).2 _ (.inl rfl)
    exact ⟨_, rfl, hstack⟩

/-- An instruction that faults has taken the words that the table tells, or all that there were; it
changes nothing else. -/
theorem Failure.state_eq (h : Failure limits i s fault t) :
  t = { s with
    stack := if fault.code = .stackUnderflow then [] else s.stack.drop i.opcode.pops }
  := by
  cases h with
  | empty hi hs =>
    change s = { s with stack := [] }
    rw [← hs]
  | lacksOperand | lacksValue => rfl
  | address hi hs =>
    rw [if_neg nofun, hs]
    rcases hi with rfl | rfl <;> rfl
  | allocation hs =>
    rw [if_neg nofun, hs]
    rfl
  | binary hs happly =>
    rw [if_neg (BinaryOperator.isArithmetic_apply happly).ne_stackUnderflow, hs]
    rfl
  | unary hs happly =>
    rw [if_neg (UnaryOperator.isArithmetic_apply happly).ne_stackUnderflow, hs]
    rfl

/-! ### Cycles -/

/-- What a faulting cycle leaves behind: nothing has been fetched and nothing is changed, or the
instruction has been counted and passed, and has taken its words. -/
theorem cycle_faulted {code : Array (Instruction Nat)}
    (h : s.cycle limits code = .faulted fault t) :
  (fault.code = .fetchRange ∨ fault.code = .stepLimit) ∧ t = s
    ∨ (fault.code ≠ .fetchRange ∧ fault.code ≠ .stepLimit) ∧ ∃ i, code[s.pc]? = some i
      ∧ t = { s.advance with
        stack := if fault.code = .stackUnderflow then [] else s.stack.drop i.opcode.pops }
  := by
  cases hi : s.fetch limits code with
  | error e =>
    rw [cycle_of_fetch_error hi] at h
    cases h
    left
    rcases fetch_eq_error hi with ⟨limit, -, -, rfl⟩ | ⟨-, rfl⟩
    · exact ⟨.inr rfl, rfl⟩
    · exact ⟨.inl rfl, rfl⟩
  | ok i =>
    rw [cycle_of_fetch hi] at h
    right
    obtain ⟨hcode, -⟩ := fetch_eq_ok.mp hi
    exact ⟨(cause_of_execute h).code_ne, i, hcode, (failure_of_execute h).state_eq⟩

end State

namespace Machine

variable {data : List Datum} {options : MachineOptions} {m : Machine}

/-- What a fault leaves behind.  From a state that a run comes to, a fault changes neither the
memory nor the heap.  If there is no instruction or no step left, it changes nothing at all and is
told at the place of the state; otherwise the instruction at that place has been counted and passed,
and has taken the words that the table tells, or all that there were. -/
theorem left_by_fault (hm : Machine.create data options = .ok m) {n : Nat} {s : State}
    (hs : m.progress n = .inl s) {r : RunResult} {m' : Machine}
    (hrun : m.run (n + 1) = .ok (some (r, m'))) {fault : Fault} {index : Nat}
    (hr : r.outcome = .faulted fault index) :
  index = s.pc ∧ r.steps = m'.state.steps
    ∧ m'.state.memory = s.memory ∧ m'.state.heap = s.heap
    ∧ (fault.code = .fetchRange ∨ fault.code = .stepLimit →
      m'.state.stack = s.stack ∧ m'.state.pc = s.pc ∧ m'.state.steps = s.steps)
    ∧ (¬ (fault.code = .fetchRange ∨ fault.code = .stepLimit) →
      m'.state.pc = index + 1 ∧ m'.state.steps = s.steps + 1
        ∧ ∃ i, m.code[index]? = some i ∧ m'.state.stack
          = if fault.code = .stackUnderflow then [] else s.stack.drop i.opcode.pops)
  := by
  obtain ⟨f, hf, rfl, rfl⟩ := run_eq_some (not_started_of_create hm) hrun
  rw [progress, State.proceed_succ hs] at hf
  cases hc : s.cycle m.limits m.code.toArray with
  | running t =>
    rw [hc] at hf
    cases hf
  | halted t =>
    rw [hc] at hf
    cases hf
    cases hr
  | faulted fault' t =>
    rw [hc] at hf
    cases hf
    cases hr
    rcases State.cycle_faulted hc with ⟨hcode, rfl⟩ | ⟨hcode, i, hi, rfl⟩
    · exact ⟨rfl, rfl, rfl, rfl, fun _ => ⟨rfl, rfl, rfl⟩, fun hne => absurd hcode hne⟩
    · refine ⟨rfl, rfl, rfl, rfl, fun h => absurd h (not_or.mpr hcode), fun _ => ?_⟩
      rw [List.getElem?_toArray] at hi
      exact ⟨rfl, rfl, i, hi, rfl⟩

/-- A division by zero takes its two operands and leaves the word under them, and the memory as it
was. -/
theorem left_by_fault_division :
  ∃ m m' s, Machine.create (Code.toProgram
      [.loadc 7, .loadc 0, .store, .loadc 1, .loadc 0, .binary .div]).toData {} = .ok m
    ∧ m.progress 5 = .inl s ∧ s.stack = [0, 1, 7]
    ∧ m.run 6 = .ok (some (⟨.faulted .divisionByZero 5, 6⟩, m'))
    ∧ m'.state.memory = s.memory ∧ m'.state.pc = 6 ∧ m'.state.steps = s.steps + 1
    ∧ ∃ i, m.code[5]? = some i ∧ m'.state.stack = s.stack.drop i.opcode.pops
  := by
  have hcode : ∀ i ∈ ([.loadc 7, .loadc 0, .store, .loadc 1, .loadc 0, .binary .div] : Code),
      i.IsWellFormed := by
    simp [Instruction.IsWellFormed, Word.IsWord, Word.least, Word.greatest]
  have hm : Machine.create (Code.toProgram
      [.loadc 7, .loadc 0, .store, .loadc 1, .loadc 0, .binary .div]).toData {} = .ok _ :=
    create_toProgram hcode rfl
  obtain ⟨-, -, hmemory, -, -, hleft⟩ := left_by_fault hm (n := 5) rfl rfl rfl
  obtain ⟨hpc, hsteps, hstack⟩ := hleft nofun
  exact ⟨_, _, _, hm, rfl, rfl, rfl, hmemory, hpc, hsteps, hstack⟩

end Machine

end StackMachine
