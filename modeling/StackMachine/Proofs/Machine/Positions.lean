import StackMachine.Proofs.Machine.Cause

/-!
# Renumbered positions

What an instruction does to the words of a machine does not depend on where the instructions
stand.  If the positions of code are renumbered, and its jumps with them, then a run of the
renumbered code is the run of the code with its positions renumbered.
-/

namespace StackMachine

/-! ### Renumbering -/

/-- The fault with the position outside the code, if it tells one, renumbered. -/
def Fault.renumber (f : Nat → Nat) : Fault → Fault
  | fetchRange pc size => fetchRange (f pc) size
  | fault => fault

/-- The outcome with its positions renumbered. -/
def Outcome.renumber (f : Nat → Nat) : Outcome → Outcome
  | halted => halted
  | faulted fault index => faulted (fault.renumber f) (f index)

/-- The state with its position renumbered. -/
def State.renumber (f : Nat → Nat) (s : State) : State := { s with pc := f s.pc }

/-- The step with its positions renumbered. -/
def Step.renumber (f : Nat → Nat) : Step → Step
  | running s => running (s.renumber f)
  | halted s => halted (s.renumber f)
  | faulted fault s => faulted (fault.renumber f) (s.renumber f)

/-- The finished run with its positions renumbered. -/
def Finished.renumber (f : Nat → Nat) (r : Finished) : Finished :=
  ⟨r.outcome.renumber f, r.state.renumber f⟩

/-- The progress of a run with its positions renumbered. -/
def Progress.renumber (f : Nat → Nat) : Progress → Progress :=
  Sum.map (State.renumber f) (Finished.renumber f)

variable {f : Nat → Nat}

theorem Fault.code_renumber (fault : Fault) :
  (fault.renumber f).code = fault.code
  := by
  cases fault <;> rfl

/-- Only the fault that there is no instruction tells a position. -/
theorem Fault.renumber_of_ne {fault : Fault} (h : fault.code ≠ .fetchRange) :
  fault.renumber f = fault
  := by
  cases fault with
  | fetchRange => cases h rfl
  | _ => rfl

theorem Fault.renumber_of_isArithmetic {fault : Fault} (h : fault.code.IsArithmetic) :
  fault.renumber f = fault
  := by
  apply Fault.renumber_of_ne
  rintro hcode
  rw [hcode] at h
  rcases h with ⟨⟨⟩⟩ | ⟨⟨⟩⟩

theorem Step.progress_renumber (index : Nat) (r : Step) :
  (r.renumber f).progress (f index) = Progress.renumber f (r.progress index)
  := by
  cases r <;> rfl

namespace State

variable {limits : Limits} {s : State}

/-! ### Instructions -/

theorem withPop_renumber {next next' : Int → State → Step}
    (h : ∀ w t, next' w (t.renumber f) = (next w t).renumber f) :
  (s.renumber f).withPop next' = (s.withPop next).renumber f
  := by
  obtain ⟨pc, stack, memory, heap, steps⟩ := s
  cases stack with
  | nil => rfl
  | cons w r => apply h w ⟨pc, r, memory, heap, steps⟩

theorem withAddress_renumber {w : Int} {next next' : Nat → Step}
    (h : ∀ a, next' a = (next a).renumber f) :
  (s.renumber f).withAddress limits w next' = (s.withAddress limits w next).renumber f
  := by
  rw [withAddress, withAddress]
  split
  · rfl
  · apply h

theorem pushResult_renumber {result : Except Fault Int}
    (h : ∀ fault, result = .error fault → fault.code.IsArithmetic) :
  (s.renumber f).pushResult result = (s.pushResult result).renumber f
  := by
  cases result with
  | ok w => rfl
  | error fault =>
    rw [pushResult, pushResult, Step.renumber, Fault.renumber_of_isArithmetic (h fault rfl)]

/-- A renumbered instruction does what the instruction does. -/
theorem execute_renumber (s : State) (i : Instruction Nat) :
  (s.renumber f).execute limits (i.map f) = (s.execute limits i).renumber f
  := by
  cases i with
  | loadc | jump | halt => rfl
  | load =>
    rw [Instruction.map, execute, execute]
    apply withPop_renumber
    intro w t
    apply withAddress_renumber
    intro a
    rfl
  | store =>
    rw [Instruction.map, execute, execute]
    apply withPop_renumber
    intro w t
    apply withAddress_renumber
    intro a
    obtain ⟨pc, stack, memory, heap, steps⟩ := t
    cases stack <;> rfl
  | pop =>
    rw [Instruction.map, execute, execute]
    apply withPop_renumber
    intro w t
    rfl
  | new =>
    rw [Instruction.map, execute, execute]
    apply withPop_renumber
    intro w t
    by_cases hw : w < 0 ∨ (limits.heap : Int) - t.heap.size < w
    · rw [if_pos hw]
      apply if_pos hw
    · rw [if_neg hw]
      apply if_neg hw
  | jumpz target =>
    rw [Instruction.map, execute, execute]
    apply withPop_renumber
    intro w t
    split <;> rfl
  | binary op =>
    rw [Instruction.map, execute, execute]
    apply withPop_renumber
    intro a t
    apply withPop_renumber
    intro b u
    apply pushResult_renumber
    intro fault
    apply BinaryOperator.isArithmetic_apply
  | unary op =>
    rw [Instruction.map, execute, execute]
    apply withPop_renumber
    intro a t
    apply pushResult_renumber
    intro fault
    apply UnaryOperator.isArithmetic_apply

end State

/-! ### Runs -/

/-- Code renumbered: its instructions stand in the same order, and none stands where there
was none. -/
structure Renumbers (f : Nat → Nat) (code code' : Array (Instruction Nat)) : Prop where
  size : code'.size = code.size
  getElem? : ∀ n, code'[f n]? = code[n]?.map (Instruction.map f)
  succ : ∀ n < code.size, f (n + 1) = f n + 1
  zero : f 0 = 0

namespace State

variable {limits : Limits} {code code' : Array (Instruction Nat)}

theorem fetch_renumber (h : Renumbers f code code') (s : State) :
  (s.renumber f).fetch limits code'
    = ((s.fetch limits code).map (Instruction.map f)).mapError (Fault.renumber f)
  := by
  have hpc : (s.renumber f).pc = f s.pc := rfl
  have hsteps : (s.renumber f).steps = s.steps := rfl
  rw [fetch, fetch, hpc, hsteps, h.getElem?, h.size]
  cases limits.maxSteps.filter (· ≤ s.steps) with
  | some limit => rfl
  | none => cases code[s.pc]? <;> rfl

/-- A cycle of renumbered code is the cycle of the code. -/
theorem cycle_renumber (h : Renumbers f code code') (s : State) :
  (s.renumber f).cycle limits code' = (s.cycle limits code).renumber f
  := by
  rw [cycle, cycle, fetch_renumber h]
  cases hi : s.fetch limits code with
  | error fault => rfl
  | ok i =>
    have hpc : s.pc < code.size := by
      have := (fetch_eq_ok.mp hi).1
      apply (Array.getElem?_eq_some_iff.mp this).1
    have hadvance : (s.renumber f).advance = s.advance.renumber f := by
      simp only [advance, renumber, h.succ s.pc hpc]
    change (s.renumber f).advance.execute limits (i.map f) = _
    rw [hadvance]
    apply execute_renumber

/-- A run of renumbered code is the run of the code. -/
theorem proceed_renumber (h : Renumbers f code code') (n : Nat) (s : State) :
  (s.renumber f).proceed limits code' n = Progress.renumber f (s.proceed limits code n)
  := by
  induction n generalizing s with
  | zero => rfl
  | succ n ih =>
    have hpc : (s.renumber f).pc = f s.pc := rfl
    rw [proceed, proceed, cycle_renumber h, hpc, Step.progress_renumber]
    cases (s.cycle limits code).progress s.pc with
    | inl t => apply ih
    | inr r => rfl

end State

/-! ### Machines -/

/-- A machine with renumbered code and the same limits comes to what the machine with the code
comes to. -/
theorem Machine.progress_renumber {m m' : Machine}
    (h : Renumbers f m.code.toArray m'.code.toArray) (hlimits : m'.limits = m.limits) (n : Nat) :
  m'.progress n = Progress.renumber f (m.progress n)
  := by
  have hinitial : State.initial.renumber f = .initial := by
    change State.mk (f 0) [] #[] #[] 0 = _
    rw [h.zero]
    rfl
  rw [progress, progress, hlimits, ← State.proceed_renumber h, hinitial]

end StackMachine
