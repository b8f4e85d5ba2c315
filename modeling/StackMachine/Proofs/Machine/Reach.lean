import StackMachine.Proofs.Machine.Effect

/-!
# Reached states

Runs are followed without counting their cycles: a state reaches another, its run ends, or
its run goes on for a number of cycles at least.  A limit of steps only cuts a run off.
-/

namespace StackMachine

namespace State

section

variable (limits : Limits) (code : Array (Instruction Nat))

/-- The run from the first state comes to the second. -/
def Reaches (s t : State) : Prop := ∃ k, s.proceed limits code k = .inl t

/-- The run from a state ends. -/
def EndsIn (s : State) (f : Finished) : Prop := ∃ k, s.proceed limits code k = .inr f

/-- The run from a state goes on after a number of cycles. -/
def GoesOn (s : State) (n : Nat) : Prop := ∃ t, s.proceed limits code n = .inl t

end

variable {limits : Limits} {code : Array (Instruction Nat)} {s t u : State}

theorem Reaches.refl (s : State) :
  s.Reaches limits code s
  := by
  use 0
  rfl

theorem Reaches.trans (h : s.Reaches limits code t) (h' : t.Reaches limits code u) :
  s.Reaches limits code u
  := by
  obtain ⟨k, hk⟩ := h
  obtain ⟨l, hl⟩ := h'
  use k + l
  rw [proceed_of_inl hk, hl]

/-- A state ends as the state that it reaches. -/
theorem Reaches.endsIn {f : Finished} (h : s.Reaches limits code t)
    (h' : t.EndsIn limits code f) :
  s.EndsIn limits code f
  := by
  obtain ⟨k, hk⟩ := h
  obtain ⟨l, hl⟩ := h'
  use k + l
  rw [proceed_of_inl hk, hl]

/-- A run that goes on has gone on before. -/
theorem GoesOn.le {m n : Nat} (h : s.GoesOn limits code n) (hm : m ≤ n) :
  s.GoesOn limits code m
  := by
  obtain ⟨t, ht⟩ := h
  cases hs : s.proceed limits code m with
  | inl u => use u
  | inr f =>
    rw [proceed_of_inr hs hm] at ht
    cases ht

/-- A state goes on for as long as the state that it reaches. -/
theorem Reaches.goesOn {n : Nat} (h : s.Reaches limits code t)
    (h' : t.GoesOn limits code n) :
  s.GoesOn limits code n
  := by
  obtain ⟨k, hk⟩ := h
  obtain ⟨u, hu⟩ := h'
  apply GoesOn.le (n := k + n)
  · use u
    rw [proceed_of_inl hk, hu]
  · apply Nat.le_add_left

/-- A cycle after which the machine goes on leads to the next state. -/
theorem proceed_one (h : s.cycle limits code = .running t) :
  s.proceed limits code 1 = .inl t
  := by
  rw [proceed, h]
  rfl

theorem reaches_of_cycle (h : s.cycle limits code = .running t) :
  s.Reaches limits code t
  := by
  use 1
  apply proceed_one h

/-- A run that goes on after a cycle goes on for one cycle more. -/
theorem goesOn_of_cycle {n : Nat} (h : s.cycle limits code = .running t)
    (h' : t.GoesOn limits code n) :
  s.GoesOn limits code (n + 1)
  := by
  obtain ⟨u, hu⟩ := h'
  use u
  rw [Nat.add_comm, proceed_of_inl (proceed_one h), hu]

theorem endsIn_of_halted (h : s.cycle limits code = .halted t) :
  s.EndsIn limits code ⟨.halted, t⟩
  := by
  use 1
  rw [proceed, h]
  rfl

theorem endsIn_of_faulted {fault : Fault} (h : s.cycle limits code = .faulted fault t) :
  s.EndsIn limits code ⟨.faulted fault s.pc, t⟩
  := by
  use 1
  rw [proceed, h]
  rfl

/-- A run ends in one way only. -/
theorem EndsIn.unique {f g : Finished} (hf : s.EndsIn limits code f) (hg : s.EndsIn limits code g) :
  f = g
  := by
  obtain ⟨m, hm⟩ := hf
  obtain ⟨n, hn⟩ := hg
  have h := proceed_of_inr hm (Nat.le_max_left m n)
  rw [proceed_of_inr hn (Nat.le_max_right m n)] at h
  cases h
  rfl

/-- A run that ends has a last cycle. -/
theorem EndsIn.last {f : Finished} (hf : s.EndsIn limits code f) :
  ∃ n t, s.proceed limits code n = .inl t ∧ (t.cycle limits code).progress t.pc = .inr f
  := by
  obtain ⟨m, hm⟩ := hf
  induction m generalizing s with
  | zero => cases hm
  | succ m ih =>
    rw [proceed] at hm
    cases hp : (s.cycle limits code).progress s.pc with
    | inr g =>
      rw [hp] at hm
      cases hm
      exact ⟨0, s, rfl, hp⟩
    | inl u =>
      rw [hp] at hm
      obtain ⟨n, t, ht, hlast⟩ := ih hm
      refine ⟨n + 1, t, ?_, hlast⟩
      rw [proceed, hp]
      apply ht

/-- The last cycle of a run that ends with a fault is the one that faults. -/
theorem EndsIn.last_faulted {f : Finished} (hf : s.EndsIn limits code f) {fault : Fault}
    {index : Nat} (hfault : f.outcome = .faulted fault index) :
  ∃ n t, s.proceed limits code n = .inl t ∧ t.cycle limits code = .faulted fault f.state
    ∧ t.pc = index
  := by
  obtain ⟨n, t, ht, hlast⟩ := hf.last
  refine ⟨n, t, ht, ?_⟩
  generalize t.cycle limits code = r at hlast ⊢
  cases r with
  | running u => cases hlast
  | halted u =>
    cases hlast
    cases hfault
  | faulted fault u =>
    cases hlast
    cases hfault
    exact ⟨rfl, rfl⟩

/-! ### Limits of steps -/

/-- What an instruction does does not depend on the limit of steps. -/
theorem execute_maxSteps (limits : Limits) (maxSteps : Option Nat) (s : State)
    (i : Instruction Nat) :
  s.execute { limits with maxSteps } i = s.execute limits i
  := by
  cases i <;> rfl

/-- A cycle counts one step. -/
theorem steps_of_cycle (h : s.cycle limits code = .running t) :
  t.steps = s.steps + 1
  := by
  obtain ⟨i, -, heffect⟩ := effect_of_cycle h
  apply heffect.steps

/-- A run that goes on counts its cycles. -/
theorem steps_of_proceed {n : Nat} (h : s.proceed limits code n = .inl t) :
  t.steps = s.steps + n
  := by
  induction n generalizing s with
  | zero =>
    cases h
    rfl
  | succ n ih =>
    rw [proceed] at h
    cases hc : s.cycle limits code with
    | running u =>
      rw [hc] at h
      rw [ih h, steps_of_cycle hc]
      omega
    | halted u =>
      rw [hc] at h
      cases h
    | faulted fault u =>
      rw [hc] at h
      cases h

/-- Before a limit of steps is reached cycles are the same as without it. -/
theorem cycle_maxSteps (hlimits : limits.maxSteps = none) {bound : Nat} (h : s.steps < bound) :
  s.cycle { limits with maxSteps := some bound } code = s.cycle limits code
  := by
  have hfetch : s.fetch { limits with maxSteps := some bound } code = s.fetch limits code := by
    rw [fetch, fetch, hlimits, Option.filter_some_neg]
    · rfl
    · apply decide_eq_false (Nat.not_le.mpr h)
  rw [cycle, cycle, hfetch]
  cases s.fetch limits code with
  | error fault => rfl
  | ok i => apply execute_maxSteps

/-- Until a limit of steps is reached a run is the same as without it. -/
theorem proceed_maxSteps (hlimits : limits.maxSteps = none) {bound n : Nat}
    (h : s.steps + n ≤ bound) :
  s.proceed { limits with maxSteps := some bound } code n = s.proceed limits code n
  := by
  induction n generalizing s with
  | zero => rfl
  | succ n ih =>
    rw [proceed, proceed, cycle_maxSteps hlimits (by omega)]
    cases hc : s.cycle limits code with
    | running u =>
      apply ih
      rw [steps_of_cycle hc]
      omega
    | halted u => rfl
    | faulted fault u => rfl

/-- A run that comes to a state is cut off there by a limit of as many steps. -/
theorem endsIn_stepLimit {bound : Nat} (hlimits : limits.maxSteps = none) (hs : s.steps = 0)
    (ht : s.proceed limits code bound = .inl t) :
  s.EndsIn { limits with maxSteps := some bound } code ⟨.faulted (.stepLimit bound) t.pc, t⟩
    ∧ t.steps = bound
  := by
  have hsteps : t.steps = bound := by
    rw [steps_of_proceed ht, hs, Nat.zero_add]
  constructor
  · have hbound : s.steps + bound ≤ bound := by omega
    rw [← proceed_maxSteps hlimits hbound] at ht
    apply Reaches.endsIn ⟨bound, ht⟩
    apply endsIn_of_faulted
    apply cycle_of_fetch_error
    rw [fetch, Option.filter_some_pos]
    apply decide_eq_true (Nat.le_of_eq hsteps.symm)
  · apply hsteps

/-- A run that goes on is cut off by a limit of steps when it has counted so many. -/
theorem GoesOn.endsIn_maxSteps {bound : Nat} (h : s.GoesOn limits code bound)
    (hlimits : limits.maxSteps = none) (hs : s.steps = 0) :
  ∃ t, s.EndsIn { limits with maxSteps := some bound } code
      ⟨.faulted (.stepLimit bound) t.pc, t⟩
    ∧ t.steps = bound
  := by
  obtain ⟨t, ht⟩ := h
  use t
  apply endsIn_stepLimit hlimits hs ht

end State

namespace Machine

/-- The run of a machine ends in a way and a state. -/
def Ends (m : Machine) (f : Finished) : Prop :=
  ∃ n m', m.run n = .ok (some (⟨f.outcome, f.state.steps⟩, m')) ∧ m'.state = f.state

variable {m : Machine}

/-- The run of a machine ends as the run from the first state does. -/
theorem ends_of_endsIn (hm : m.started = false) {f : Finished}
    (h : State.initial.EndsIn m.limits m.code.toArray f) :
  m.Ends f
  := by
  obtain ⟨n, hn⟩ := h
  use n, { m with state := f.state, started := true, events := (m.follow n).2 }
  constructor
  · rw [run_eq hm, progress, hn]
    rfl
  · rfl

/-- The run of a machine is undecided as long as the run from the first state goes on. -/
theorem run_of_goesOn (hm : m.started = false) {n : Nat}
    (h : State.initial.GoesOn m.limits m.code.toArray n) :
  m.run n = .ok none
  := by
  obtain ⟨t, ht⟩ := h
  rw [run_eq hm, progress, ht]
  rfl

end Machine

end StackMachine
