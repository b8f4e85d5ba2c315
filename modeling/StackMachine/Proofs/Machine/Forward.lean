import StackMachine.Proofs.Machine.Discipline

/-!
# Forward code

In forward code every jump leads to a later position, so the position of a run grows with every
cycle and no instruction is executed twice.  A run that stays within the code has ended after as
many cycles as there are instructions.
-/

namespace StackMachine

/-- Code in which every jump leads forward. -/
def Forward (code : Array (Instruction Nat)) : Prop :=
  ∀ (n : Nat) i t, code[n]? = some i → i.target? = some t → n < t

namespace State

variable {limits : Limits} {code : Array (Instruction Nat)} {s t : State}

/-- A cycle of forward code leads to a later position. -/
theorem lt_pc_of_cycle (hcode : Forward code) (h : s.cycle limits code = .running t) :
  s.pc < t.pc
  := by
  obtain ⟨i, hfetch, heffect⟩ := effect_of_cycle h
  rcases heffect.pc with hpc | htarget
  · rw [hpc]
    apply Nat.lt_succ_self
  · apply hcode s.pc i t.pc (fetch_eq_ok.mp hfetch).1 htarget

/-- Each cycle of a run of forward code leads one position further at least. -/
theorem add_le_pc_of_proceed (hcode : Forward code) {n : Nat}
    (h : s.proceed limits code n = .inl t) :
  s.pc + n ≤ t.pc
  := by
  induction n generalizing s with
  | zero =>
    cases h
    apply Nat.le_refl
  | succ n ih =>
    rw [proceed] at h
    cases hc : s.cycle limits code with
    | running u =>
      rw [hc] at h
      have hlt := lt_pc_of_cycle hcode hc
      have hle := ih h
      omega
    | halted u =>
      rw [hc] at h
      cases h
    | faulted fault u =>
      rw [hc] at h
      cases h

/-- A cycle counts one step at most. -/
theorem steps_cycle_le (limits : Limits) (code : Array (Instruction Nat)) (s : State) :
  (s.cycle limits code).state.steps ≤ s.steps + 1
  := by
  have hturn := turn_cycle limits code s
  generalize s.cycle limits code = r at hturn ⊢
  cases hturn with
  | refused => apply Nat.le_succ
  | running _ heffect => apply Nat.le_of_eq heffect.steps
  | halted | faulted => apply Nat.le_refl

/-- A run counts one step for each cycle at most, whether or not it has ended. -/
theorem steps_proceed_le (limits : Limits) (code : Array (Instruction Nat)) (n : Nat) (s : State) :
  (s.proceed limits code n).state.steps ≤ s.steps + n
  := by
  induction n generalizing s with
  | zero => apply Nat.le_refl
  | succ n ih =>
    have hcycle := steps_cycle_le limits code s
    rw [← Step.state_progress s.pc] at hcycle
    rw [proceed]
    cases hp : (s.cycle limits code).progress s.pc with
    | inl t =>
      rw [hp] at hcycle
      have hle : t.steps ≤ s.steps + 1 := hcycle
      have := ih t
      simp only
      omega
    | inr f =>
      rw [hp] at hcycle
      have hle : f.state.steps ≤ s.steps + 1 := hcycle
      change f.state.steps ≤ _
      omega

end State

namespace Machine

/-- The run of a machine with forward code that is disciplined has ended after as many cycles as
the code has instructions, and has counted no more steps. -/
theorem ends_of_forward {m : Machine} {slots bound : Nat} (hm : m.started = false)
    (hcode : Disciplined m.code.toArray slots bound) (hforward : Forward m.code.toArray) :
  ∃ r m', m.run m.code.length = .ok (some (r, m')) ∧ r.steps ≤ m.code.length
  := by
  have hsteps := State.steps_proceed_le m.limits m.code.toArray m.code.length .initial
  cases hp : m.progress m.code.length with
  | inl s =>
    have hle := State.add_le_pc_of_proceed hforward hp
    have hlt := ((State.follows_initial hcode).proceed hcode hp).pc
    have hinitial : State.initial.pc = 0 := rfl
    rw [List.size_toArray] at hlt
    omega
  | inr f =>
    rw [progress] at hp
    rw [hp] at hsteps
    have hrun := run_eq hm m.code.length
    rw [progress, hp] at hrun
    refine ⟨_, _, hrun, ?_⟩
    apply Nat.le_trans hsteps (Nat.le_of_eq (Nat.zero_add _))

end Machine

end StackMachine
