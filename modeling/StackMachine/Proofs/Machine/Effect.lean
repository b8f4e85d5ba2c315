import StackMachine.Proofs.Machine.Cycle

/-!
# Effects of instructions

An instruction that is executed without a fault has an effect: which words it needs on the
stack, and which state it leads to.  An instruction that faults fails in one of a few ways: a word
is missing on the stack, or the words that it has taken from there are no good.
-/

namespace StackMachine

/-! ### Regions -/

theorem size_growTo (region : Array Int) (n : Nat) :
  (growTo region n).size = max region.size n
  := by
  rw [growTo, Array.size_append, Array.size_replicate]
  omega

/-- What is read from a region that is lengthened is what was read before. -/
theorem getD_growTo (region : Array Int) (n a : Nat) :
  (growTo region n).getD a 0 = region.getD a 0
  := by
  simp only [growTo, Array.getD_eq_getD_getElem?, Array.getElem?_append,
    Array.getElem?_replicate]
  split
  · rfl
  · next h =>
    rw [Array.getElem?_eq_none (Nat.not_lt.mp h)]
    split <;> rfl

/-- What is read from a region that is lengthened and in which a word is stored. -/
theorem getD_setIfInBounds_growTo (region : Array Int) (n a : Nat) (w : Int) :
  ((growTo region (n + 1)).setIfInBounds n w).getD a 0 = if a = n then w else region.getD a 0
  := by
  have hn : n < (growTo region (n + 1)).size := by
    rw [size_growTo]
    omega
  rw [← getD_growTo region (n + 1), Array.getD_eq_getD_getElem?, Array.getD_eq_getD_getElem?,
    Array.getElem?_setIfInBounds, if_pos hn]
  by_cases ha : n = a
  · rw [if_pos ha, if_pos ha.symm]
    rfl
  · rw [if_neg ha, if_neg (Ne.symm ha)]

/-- Zeros lengthened are zeros. -/
theorem growTo_replicate (m n : Nat) :
  growTo (Array.replicate m 0) (m + n) = Array.replicate (m + n) 0
  := by
  rw [growTo, Array.size_replicate, Nat.add_sub_cancel_left, Array.replicate_append_replicate]

namespace State

/-! ### Effects -/

/-- The effect of an instruction: it leads from the first state to the second. -/
inductive Effect (limits : Limits) : Instruction Nat → State → State → Prop where
  | loadc {s : State} (value : Int) : Effect limits (.loadc value) s (s.push value)
  | load {s : State} {a : Nat} {r : List Int} (hs : s.stack = (a : Int) :: r)
      (ha : a < limits.memory) :
      Effect limits .load s
        { s with
          stack := (growTo s.memory (a + 1)).getD a 0 :: r
          memory := growTo s.memory (a + 1) }
  | store {s : State} {a : Nat} {w : Int} {r : List Int} (hs : s.stack = (a : Int) :: w :: r)
      (ha : a < limits.memory) :
      Effect limits .store s
        { s with
          stack := w :: r
          memory := (growTo s.memory (a + 1)).setIfInBounds a w }
  | pop {s : State} {w : Int} {r : List Int} (hs : s.stack = w :: r) :
      Effect limits .pop s { s with stack := r }
  | new {s : State} {n : Nat} {r : List Int} (hs : s.stack = (n : Int) :: r)
      (hn : s.heap.size + n ≤ limits.heap) :
      Effect limits .new s
        { s with
          stack := (s.heap.size : Int) :: r
          heap := growTo s.heap (s.heap.size + n) }
  | jump {s : State} (target : Nat) : Effect limits (.jump target) s { s with pc := target }
  | jumpzTaken {s : State} {r : List Int} (target : Nat) (hs : s.stack = 0 :: r) :
      Effect limits (.jumpz target) s { s with pc := target, stack := r }
  | jumpzPassed {s : State} {w : Int} {r : List Int} (target : Nat) (hs : s.stack = w :: r)
      (hw : w ≠ 0) :
      Effect limits (.jumpz target) s { s with stack := r }
  | binary {s : State} {op : BinaryOperator} {a b w : Int} {r : List Int}
      (hs : s.stack = a :: b :: r) (hw : op.apply b a = .ok w) :
      Effect limits (.binary op) s { s with stack := w :: r }
  | unary {s : State} {op : UnaryOperator} {a w : Int} {r : List Int}
      (hs : s.stack = a :: r) (hw : op.apply a = .ok w) :
      Effect limits (.unary op) s { s with stack := w :: r }

variable {limits : Limits}

/-- An instruction that has an effect is executed with that effect. -/
theorem Effect.execute {i : Instruction Nat} {s t : State} (h : Effect limits i s t) :
  s.execute limits i = .running t
  := by
  cases h with
  | loadc => rfl
  | load hs ha => simp [State.execute, withPop, withAddress, push, hs, ha]
  | store hs ha => simp [State.execute, withPop, withAddress, withTop, hs, ha]
  | pop hs => simp [State.execute, withPop, hs]
  | @new _ n _ hs hn =>
    have hn' : ¬ ((limits.heap : Int) - s.heap.size < n) := by omega
    simp [State.execute, withPop, push, hs, hn']
  | jump => rfl
  | jumpzTaken target hs => simp [State.execute, withPop, hs]
  | jumpzPassed target hs hw => simp [State.execute, withPop, hs, hw]
  | binary hs hw => simp [State.execute, withPop, pushResult, push, hs, hw]
  | unary hs hw => simp [State.execute, withPop, pushResult, push, hs, hw]

/-- The effect of an instruction does not count steps. -/
theorem Effect.steps {i : Instruction Nat} {s t : State} (h : Effect limits i s t) :
  t.steps = s.steps
  := by
  cases h <;> rfl

/-! ### Failures -/

/-- The failure of an instruction in the first state, with a fault, by which it leaves the second
state behind. -/
inductive Failure (limits : Limits) : Instruction Nat → State → Fault → State → Prop where
  | empty {i : Instruction Nat} {s : State} (hi : 0 < i.opcode.pops) (hs : s.stack = []) :
      Failure limits i s .stackUnderflow s
  | lacksOperand {s : State} {op : BinaryOperator} {a : Int} (hs : s.stack = [a]) :
      Failure limits (.binary op) s .stackUnderflow { s with stack := [] }
  | lacksValue {s : State} {a : Nat} (hs : s.stack = [(a : Int)]) (ha : a < limits.memory) :
      Failure limits .store s .stackUnderflow { s with stack := [] }
  | address {i : Instruction Nat} {s : State} {w : Int} {r : List Int}
      (hi : i = .load ∨ i = .store) (hs : s.stack = w :: r)
      (hw : w < 0 ∨ (limits.memory : Int) ≤ w) :
      Failure limits i s (.address w limits.memory) { s with stack := r }
  | allocation {s : State} {w : Int} {r : List Int} (hs : s.stack = w :: r)
      (hw : w < 0 ∨ (limits.heap : Int) - s.heap.size < w) :
      Failure limits .new s (.allocation w s.heap.size limits.heap) { s with stack := r }
  | binary {s : State} {op : BinaryOperator} {a b : Int} {r : List Int} {fault : Fault}
      (hs : s.stack = a :: b :: r) (h : op.apply b a = .error fault) :
      Failure limits (.binary op) s fault { s with stack := r }
  | unary {s : State} {op : UnaryOperator} {a : Int} {r : List Int} {fault : Fault}
      (hs : s.stack = a :: r) (h : op.apply a = .error fault) :
      Failure limits (.unary op) s fault { s with stack := r }

/-- An instruction that takes a word from the empty stack faults. -/
theorem execute_of_empty {i : Instruction Nat} {s : State} (hi : 0 < i.opcode.pops)
    (hs : s.stack = []) :
  s.execute limits i = .faulted .stackUnderflow s
  := by
  cases i with
  | loadc | jump | halt => cases hi
  | load | store | pop | new | jumpz | binary | unary => simp [execute, withPop, hs]

/-- An instruction that fails is executed with that fault. -/
theorem Failure.execute {i : Instruction Nat} {s t : State} {fault : Fault}
    (h : Failure limits i s fault t) :
  s.execute limits i = .faulted fault t
  := by
  cases h with
  | empty hi hs => apply execute_of_empty hi hs
  | lacksOperand hs => simp [State.execute, withPop, hs]
  | lacksValue hs ha => simp [State.execute, withPop, withAddress, withTop, hs, ha]
  | address hi hs hw =>
    rcases hi with rfl | rfl
    · simp [State.execute, withPop, withAddress, hs, hw]
    · simp [State.execute, withPop, withAddress, hs, hw]
  | allocation hs hw => simp [State.execute, withPop, hs, hw]
  | binary hs h => simp [State.execute, withPop, pushResult, hs, h]
  | unary hs h => simp [State.execute, withPop, pushResult, hs, h]

/-! ### Executions -/

/-- A word is an address of the memory, or it is none. -/
theorem address_or_not (limits : Limits) (w : Int) :
  (∃ a : Nat, w = a ∧ a < limits.memory) ∨ (w < 0 ∨ (limits.memory : Int) ≤ w)
  := by
  by_cases hw : w < 0 ∨ (limits.memory : Int) ≤ w
  · exact .inr hw
  · obtain ⟨hnonneg, hlt⟩ := not_or.mp hw
    obtain ⟨a, rfl⟩ := Int.eq_ofNat_of_zero_le (Int.not_lt.mp hnonneg)
    left
    use a, rfl
    omega

/-- An instruction other than `halt` has an effect or fails, whatever the state. -/
theorem effect_or_failure (limits : Limits) {i : Instruction Nat} (hi : i ≠ .halt) (s : State) :
  (∃ t, Effect limits i s t) ∨ ∃ fault t, Failure limits i s fault t
  := by
  cases i with
  | loadc value => exact .inl ⟨_, .loadc value⟩
  | jump target => exact .inl ⟨_, .jump target⟩
  | halt => cases hi rfl
  | load =>
    cases hs : s.stack with
    | nil => exact .inr ⟨_, _, .empty Nat.one_pos hs⟩
    | cons w r =>
      rcases address_or_not limits w with ⟨a, rfl, ha⟩ | hw
      · exact .inl ⟨_, .load hs ha⟩
      · exact .inr ⟨_, _, .address (.inl rfl) hs hw⟩
  | store =>
    cases hs : s.stack with
    | nil => exact .inr ⟨_, _, .empty Nat.one_pos hs⟩
    | cons w r =>
      rcases address_or_not limits w with ⟨a, rfl, ha⟩ | hw
      · cases r with
        | nil => exact .inr ⟨_, _, .lacksValue hs ha⟩
        | cons value r => exact .inl ⟨_, .store hs ha⟩
      · exact .inr ⟨_, _, .address (.inr rfl) hs hw⟩
  | pop =>
    cases hs : s.stack with
    | nil => exact .inr ⟨_, _, .empty Nat.one_pos hs⟩
    | cons w r => exact .inl ⟨_, .pop hs⟩
  | new =>
    cases hs : s.stack with
    | nil => exact .inr ⟨_, _, .empty Nat.one_pos hs⟩
    | cons w r =>
      by_cases hw : w < 0 ∨ (limits.heap : Int) - s.heap.size < w
      · exact .inr ⟨_, _, .allocation hs hw⟩
      · obtain ⟨hnonneg, hroom⟩ := not_or.mp hw
        obtain ⟨n, rfl⟩ := Int.eq_ofNat_of_zero_le (Int.not_lt.mp hnonneg)
        exact .inl ⟨_, .new hs (by omega)⟩
  | jumpz target =>
    cases hs : s.stack with
    | nil => exact .inr ⟨_, _, .empty Nat.one_pos hs⟩
    | cons w r =>
      by_cases hw : w = 0
      · subst hw
        exact .inl ⟨_, .jumpzTaken target hs⟩
      · exact .inl ⟨_, .jumpzPassed target hs hw⟩
  | binary op =>
    cases hs : s.stack with
    | nil => exact .inr ⟨_, _, .empty Nat.two_pos hs⟩
    | cons a r =>
      cases r with
      | nil => exact .inr ⟨_, _, .lacksOperand hs⟩
      | cons b r =>
        cases h : op.apply b a with
        | ok w => exact .inl ⟨_, .binary hs h⟩
        | error fault => exact .inr ⟨_, _, .binary hs h⟩
  | unary op =>
    cases hs : s.stack with
    | nil => exact .inr ⟨_, _, .empty Nat.one_pos hs⟩
    | cons a r =>
      cases h : op.apply a with
      | ok w => exact .inl ⟨_, .unary hs h⟩
      | error fault => exact .inr ⟨_, _, .unary hs h⟩

/-- What the execution of an instruction in a state can come to. -/
inductive Execution (limits : Limits) (i : Instruction Nat) (s : State) : Step → Prop where
  | running {t : State} (h : Effect limits i s t) : Execution limits i s (.running t)
  | halted (h : i = .halt) : Execution limits i s (.halted s)
  | faulted {fault : Fault} {t : State} (h : Failure limits i s fault t) :
      Execution limits i s (.faulted fault t)

/-- The execution of an instruction comes to nothing else. -/
theorem execution_execute (limits : Limits) (i : Instruction Nat) (s : State) :
  Execution limits i s (s.execute limits i)
  := by
  by_cases hi : i = .halt
  · subst hi
    exact .halted rfl
  · rcases effect_or_failure limits hi s with ⟨t, h⟩ | ⟨fault, t, h⟩
    · rw [h.execute]
      exact .running h
    · rw [h.execute]
      exact .faulted h

section

variable {i : Instruction Nat} {s t : State} {fault : Fault}

/-- An instruction after which the machine goes on has an effect. -/
theorem effect_of_execute (h : s.execute limits i = .running t) :
  Effect limits i s t
  := by
  have hs := execution_execute limits i s
  rw [h] at hs
  cases hs with
  | running h => exact h

/-- Only `halt` halts the machine, and it changes nothing. -/
theorem execute_eq_halted_iff :
  s.execute limits i = .halted t ↔ i = .halt ∧ t = s
  := by
  constructor
  · intro h
    have hs := execution_execute limits i s
    rw [h] at hs
    cases hs with
    | halted hi => exact ⟨hi, rfl⟩
  · rintro ⟨rfl, rfl⟩
    rfl

/-- An instruction that faults fails in one of the ways. -/
theorem failure_of_execute (h : s.execute limits i = .faulted fault t) :
  Failure limits i s fault t
  := by
  have hs := execution_execute limits i s
  rw [h] at hs
  cases hs with
  | faulted h => exact h

/-- An instruction that fails takes words from the stack and changes nothing else. -/
theorem Failure.exists_drop (h : Failure limits i s fault t) :
  ∃ k, t = { s with stack := s.stack.drop k }
  := by
  cases h with
  | empty => exact ⟨0, rfl⟩
  | lacksOperand hs | lacksValue hs | address _ hs | allocation hs | unary hs =>
    use 1
    rw [hs]
    rfl
  | binary hs =>
    use 2
    rw [hs]
    rfl

end

/-! ### Cycles -/

/-- What a cycle from a state can come to: nothing is fetched and nothing changes, or what is
fetched has an effect, is `halt`, or faults and has taken words from the stack. -/
inductive Turn (limits : Limits) (code : Array (Instruction Nat)) (s : State) : Step → Prop where
  | refused {fault : Fault} (h : s.fetch limits code = .error fault) :
      Turn limits code s (.faulted fault s)
  | running {i : Instruction Nat} {t : State} (hi : s.fetch limits code = .ok i)
      (ht : Effect limits i s.advance t) : Turn limits code s (.running t)
  | halted (hi : s.fetch limits code = .ok .halt) : Turn limits code s (.halted s.advance)
  | faulted {i : Instruction Nat} (hi : s.fetch limits code = .ok i) (fault : Fault) (k : Nat) :
      Turn limits code s (.faulted fault { s.advance with stack := s.stack.drop k })

/-- A cycle comes to nothing else. -/
theorem turn_cycle (limits : Limits) (code : Array (Instruction Nat)) (s : State) :
  s.Turn limits code (s.cycle limits code)
  := by
  cases hi : s.fetch limits code with
  | error fault =>
    rw [cycle_of_fetch_error hi]
    apply Turn.refused hi
  | ok i =>
    rw [cycle_of_fetch hi]
    cases h : s.advance.execute limits i with
    | running t => apply Turn.running hi (effect_of_execute h)
    | halted t =>
      obtain ⟨rfl, rfl⟩ := execute_eq_halted_iff.mp h
      apply Turn.halted hi
    | faulted fault t =>
      obtain ⟨k, rfl⟩ := (failure_of_execute h).exists_drop
      apply Turn.faulted hi

/-- A cycle after which the machine goes on has the effect of what is fetched. -/
theorem effect_of_cycle {code : Array (Instruction Nat)} {s t : State}
    (h : s.cycle limits code = .running t) :
  ∃ i, s.fetch limits code = .ok i ∧ Effect limits i s.advance t
  := by
  have hturn := turn_cycle limits code s
  rw [h] at hturn
  cases hturn with
  | running hi ht => exact ⟨_, hi, ht⟩

end State

end StackMachine
