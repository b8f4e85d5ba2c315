import Mathlib.Tactic.Common
import StackMachine.Machine

/-!
# Cycles

A cycle fetches an instruction and executes it.  The progress of a run after a number of
cycles is the state from which the run goes on, or how it has ended.  A run that is
followed gives its end as soon as the progress does, whether it is observed or not.
-/

namespace StackMachine

/-! ### Single cycles -/

/-- The state in which a step leaves the machine. -/
def Step.state : Step → State
  | running s => s
  | halted s => s
  | faulted _ s => s

/-- What is known of a run: the state from which it goes on, or how it has ended. -/
abbrev Progress := State ⊕ Finished

/-- The state of a run, whether it goes on or has ended. -/
def Progress.state : Progress → State
  | .inl s => s
  | .inr f => f.state

/-- What is known of a run after a step of the instruction at an index. -/
def Step.progress (index : Nat) : Step → Progress
  | running s => .inl s
  | halted s => .inr ⟨.halted, s⟩
  | faulted fault s => .inr ⟨.faulted fault index, s⟩

theorem Step.state_progress (index : Nat) (r : Step) :
  (r.progress index).state = r.state
  := by
  cases r <;> rfl

namespace State

section

variable (limits : Limits) (code : Array (Instruction Nat))

/-- One cycle: the next instruction is fetched and executed. -/
def cycle (s : State) : Step :=
  match s.fetch limits code with
  | .error fault => .faulted fault s
  | .ok i => s.advance.execute limits i

/-- The progress of a run from a state after a number of cycles. -/
def proceed : Nat → State → Progress
  | 0, s => .inl s
  | n + 1, s =>
    match (s.cycle limits code).progress s.pc with
    | .inl t => proceed n t
    | .inr f => .inr f

end

variable {limits : Limits} {code : Array (Instruction Nat)}

theorem cycle_of_fetch {s : State} {i : Instruction Nat} (h : s.fetch limits code = .ok i) :
  s.cycle limits code = s.advance.execute limits i
  := by
  rw [cycle, h]

theorem cycle_of_fetch_error {s : State} {fault : Fault}
    (h : s.fetch limits code = .error fault) :
  s.cycle limits code = .faulted fault s
  := by
  rw [cycle, h]

/-- An instruction is fetched exactly when there is one and the limit of steps is not
reached. -/
theorem fetch_eq_ok {s : State} {i : Instruction Nat} :
  s.fetch limits code = .ok i
    ↔ code[s.pc]? = some i ∧ ∀ limit, limits.maxSteps = some limit → s.steps < limit
  := by
  have hlimit : limits.maxSteps.filter (· ≤ s.steps) = none
      ↔ ∀ limit, limits.maxSteps = some limit → s.steps < limit := by
    simp [Option.filter_eq_none_iff]
  rw [← hlimit, fetch]
  cases limits.maxSteps.filter (· ≤ s.steps) with
  | some limit => simp
  | none => cases hcode : code[s.pc]? <;> simp

/-! ### Several cycles -/

/-- A run that has ended has ended after more cycles too. -/
theorem proceed_add (m n : Nat) (s : State) :
  s.proceed limits code (m + n)
    = match s.proceed limits code m with
      | .inl t => t.proceed limits code n
      | .inr f => .inr f
  := by
  induction m generalizing s with
  | zero =>
    rw [Nat.zero_add]
    rfl
  | succ m ih =>
    rw [Nat.succ_add, proceed, proceed]
    cases (s.cycle limits code).progress s.pc with
    | inl t => apply ih
    | inr f => rfl

/-- A run that goes on after `m` cycles goes on from there. -/
theorem proceed_of_inl {m : Nat} {s t : State} (h : s.proceed limits code m = .inl t)
    (n : Nat) :
  s.proceed limits code (m + n) = t.proceed limits code n
  := by
  rw [proceed_add, h]

/-- The end of a run does not depend on how long it is followed. -/
theorem proceed_of_inr {m : Nat} {s : State} {f : Finished}
    (h : s.proceed limits code m = .inr f) {n : Nat} (hn : m ≤ n) :
  s.proceed limits code n = .inr f
  := by
  obtain ⟨k, rfl⟩ := Nat.exists_eq_add_of_le hn
  rw [proceed_add, h]

/-- The last of several cycles. -/
theorem proceed_succ {n : Nat} {s t : State} (h : s.proceed limits code n = .inl t) :
  s.proceed limits code (n + 1) = (t.cycle limits code).progress t.pc
  := by
  rw [proceed_of_inl h, proceed]
  cases (t.cycle limits code).progress t.pc with
  | inl u => rfl
  | inr f => rfl

/-- What every cycle preserves holds of the states of a run. -/
theorem proceed_invariant {P : State → Prop}
    (hcycle : ∀ s, P s → P (s.cycle limits code).state) (n : Nat) {s : State} (hs : P s) :
  P (s.proceed limits code n).state
  := by
  induction n generalizing s with
  | zero => exact hs
  | succ n ih =>
    have h := hcycle s hs
    rw [← Step.state_progress s.pc] at h
    rw [proceed]
    cases hp : (s.cycle limits code).progress s.pc with
    | inl t =>
      rw [hp] at h
      apply ih h
    | inr f =>
      rw [hp] at h
      apply h

/-- What every cycle after which the machine goes on preserves holds of the states between the
cycles of a run. -/
theorem proceed_induction {P : State → Prop}
    (hcycle : ∀ s t, P s → s.cycle limits code = .running t → P t) {n : Nat} {s t : State}
    (h : s.proceed limits code n = .inl t) (hs : P s) :
  P t
  := by
  induction n generalizing s with
  | zero =>
    cases h
    exact hs
  | succ n ih =>
    rw [proceed] at h
    cases hc : s.cycle limits code with
    | running u =>
      rw [hc] at h
      apply ih h (hcycle s u hs hc)
    | halted u =>
      rw [hc] at h
      cases h
    | faulted fault u =>
      rw [hc] at h
      cases h

/-! ### Runs -/

/-- A run that is not observed ends as its progress tells. -/
theorem runFrom_ignore (n : Nat) (s : State) :
  Id.run (runFrom Machine.ignore limits code n s) = (s.proceed limits code n).getRight?
  := by
  induction n generalizing s with
  | zero => rfl
  | succ n ih =>
    rw [runFrom, proceed, cycle]
    cases s.fetch limits code with
    | error fault => rfl
    | ok i =>
      simp only
      cases s.advance.execute limits i with
      | running t => apply ih
      | halted t => rfl
      | faulted fault t => rfl

/-- A run whose events are kept ends as its progress tells. -/
theorem runFrom_record (n : Nat) (s : State) (events : List Event) :
  ((runFrom Machine.record limits code n s).run events).1
    = (s.proceed limits code n).getRight?
  := by
  induction n generalizing s events with
  | zero => rfl
  | succ n ih =>
    rw [runFrom, proceed, cycle]
    cases s.fetch limits code with
    | error fault => rfl
    | ok i =>
      simp only
      cases s.advance.execute limits i with
      | running t => apply ih
      | halted t => rfl
      | faulted fault t => rfl

end State

namespace Machine

/-- The progress of the run of a machine after a number of cycles. -/
def progress (m : Machine) (n : Nat) : Progress :=
  State.initial.proceed m.limits m.code.toArray n

/-- Following a machine for a number of steps gives its end if there is one by then. -/
theorem follow_fst (m : Machine) (n : Nat) :
  (m.follow n).1 = (m.progress n).getRight?
  := by
  rw [follow]
  split
  · apply State.runFrom_record
  · apply State.runFrom_ignore

/-- A machine that has not run yet gives the result of its run as soon as the progress
does. -/
theorem run_eq {m : Machine} (hm : m.started = false) (n : Nat) :
  m.run n = .ok ((m.progress n).getRight?.map fun f =>
    (⟨f.outcome, f.state.steps⟩,
      { m with state := f.state, started := true, events := (m.follow n).2 }))
  := by
  have h := follow_fst m n
  rw [run, hm, ← h]
  rcases m.follow n with ⟨_ | f, events⟩ <;> rfl

/-- The result of a run that has ended, and the machine afterwards, are those of the progress. -/
theorem run_eq_some {m : Machine} (hm : m.started = false) {n : Nat} {r : RunResult}
    {m' : Machine} (h : m.run n = .ok (some (r, m'))) :
  ∃ f, m.progress n = .inr f ∧ r = ⟨f.outcome, f.state.steps⟩
    ∧ m' = { m with state := f.state, started := true, events := (m.follow n).2 }
  := by
  rw [run_eq hm] at h
  cases hp : m.progress n with
  | inl s =>
    rw [hp] at h
    cases h
  | inr f =>
    rw [hp] at h
    cases h
    exact ⟨f, rfl, rfl, rfl⟩

end Machine

end StackMachine
