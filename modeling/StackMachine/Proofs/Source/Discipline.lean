import StackMachine.Proofs.Source.Heights

/-!
# Stack discipline of lowered code

Whatever its limits, a machine with lowered code finds every word that it takes from the stack,
stays within the code, and leaves the heap alone.  It has the same number of words on the stack
whenever it comes to the same instruction.
-/

namespace StackMachine

namespace Source

/-- A machine with lowered code never misses a word or an instruction and never uses the heap,
and an address is outside the memory only if the memory is smaller than the number of declared
names.  In every state that it passes, the stack is at most one higher than the number of nodes
of the largest expression, the memory is no larger than the number of declared names, and the
heap is empty.  Two machines with the code, whatever their options, have stacks of the same
height at the same place. -/
theorem stack_discipline {statements : List Stmt} {code : Code} {options : MachineOptions}
    {m : Machine} (hlower : lower statements = .ok code)
    (hm : Machine.create code.toProgram.toData options = .ok m) :
  (∀ n r m', m.run n = .ok (some (r, m')) → ∀ fault index, r.outcome = .faulted fault index →
      fault.code ≠ .stackUnderflow ∧ fault.code ≠ .fetchRange ∧ fault.code ≠ .alloc
        ∧ (fault.code = .address →
          m.limits.memory < (Stmt.declaredAll statements).dedup.length))
    ∧ (∀ s, m.Passes s → s.stack.length ≤ Stmt.largestAll statements + 1
      ∧ s.memory.size ≤ (Stmt.declaredAll statements).dedup.length ∧ s.heap = #[])
    ∧ ∀ options' m', Machine.create code.toProgram.toData options' = .ok m' →
      ∀ n n' s s', m.progress n = .inl s → m'.progress n' = .inl s' → s.pc = s'.pc →
        s.stack.length = s'.stack.length
  := by
  have hdisciplined {options' : MachineOptions} {m' : Machine}
      (hm' : Machine.create code.toProgram.toData options' = .ok m') :
      Disciplined m'.code.toArray (Stmt.declaredAll statements).dedup.length
        (Stmt.largestAll statements + 1) := by
    rw [Machine.code_of_create_toProgram hm']
    apply disciplined_of_lower hlower
  have hstarted := Machine.not_started_of_create hm
  refine ⟨?_, ?_, ?_⟩
  · intro n r m' hrun fault index hfault
    have h := Machine.remains_of_run hstarted (hdisciplined hm) hrun hfault
    exact ⟨h.stackUnderflow, h.fetchRange, h.alloc, h.address⟩
  · intro s hs
    have h := Machine.isConfined_of_passes hstarted (hdisciplined hm) hs
    exact ⟨h.stack, h.memory, h.heap⟩
  · intro options' m' hm' n n' s s' hs hs' hpc
    rw [Machine.height_of_progress (hdisciplined hm) hs,
      Machine.height_of_progress (hdisciplined hm') hs', hpc,
      Machine.code_of_create_toProgram hm, Machine.code_of_create_toProgram hm']

/-- The countdown, whose largest expression has three nodes, keeps its stack within four words
and its memory within one, and faults for want of an address in a memory of no words. -/
theorem stack_discipline_countdown :
  ∃ code m m', lower countdown = .ok code
    ∧ Machine.create code.toProgram.toData {} = .ok m
    ∧ (∀ s, m.Passes s → s.stack.length ≤ 4 ∧ s.memory.size ≤ 1 ∧ s.heap = #[])
    ∧ Machine.create code.toProgram.toData { memoryLimit := .number (.int 0) } = .ok m'
    ∧ ∃ r p, m'.run 3 = .ok (some (r, p)) ∧ r.outcome = .faulted (.address 0 0) 2
      ∧ m'.limits.memory < 1
  := by
  have hlower : lower countdown = .ok _ := rfl
  have hdeclared : (Stmt.declaredAll countdown).dedup.length = 1 := by decide
  have hcode := isWellFormed_of_lower hlower (by rw [hdeclared]; decide)
  have hm : Machine.create (Code.toProgram _).toData {} = .ok _ :=
    Machine.create_toProgram hcode rfl
  have hm' : Machine.create (Code.toProgram _).toData { memoryLimit := .number (.int 0) } = .ok _ :=
    Machine.create_toProgram hcode rfl
  refine ⟨_, _, _, hlower, hm, ?_, hm', _, _, rfl, rfl, ?_⟩
  · intro s hs
    have h := (stack_discipline hlower hm).2.1 s hs
    rw [hdeclared] at h
    apply h
  · have h := (stack_discipline hlower hm').1 3 _ _ rfl _ _ rfl
    rw [hdeclared] at h
    apply h.2.2.2 rfl

end Source

end StackMachine
