import StackMachine.Proofs.Machine.Bounds
import StackMachine.Proofs.Machine.Reach
import StackMachine.Proofs.Machine.Tracing

/-!
# Executed instructions

A run executes an instruction in each of its cycles in which one is fetched.  The steps among the
events of a run that has ended tell of these instructions, one by one and in the same order.
-/

namespace StackMachine

namespace State

variable (limits : Limits) (code : Array (Instruction Nat))

/-- The instruction that the run from a state executes in a cycle; none if the run has ended
before, or if it ends there for want of an instruction. -/
def executed? (s : State) (n : Nat) : Option (Instruction Nat) :=
  match s.proceed limits code n with
  | .inl t => (t.fetch limits code).toOption
  | .inr _ => none

variable {limits code} {s : State}

/-- The instruction that is executed in a later cycle is executed after the first one. -/
theorem executed?_succ (n : Nat) :
  s.executed? limits code (n + 1)
    = match (s.cycle limits code).progress s.pc with
      | .inl t => t.executed? limits code n
      | .inr _ => none
  := by
  rw [executed?, proceed]
  cases (s.cycle limits code).progress s.pc <;> rfl

/-- The instructions that are executed in several cycles, from the first one on. -/
theorem filterMap_executed?_succ (n : Nat) :
  (List.range (n + 1)).filterMap (s.executed? limits code)
    = (s.fetch limits code).toOption.toList
      ++ match (s.cycle limits code).progress s.pc with
        | .inl t => (List.range n).filterMap (t.executed? limits code)
        | .inr _ => []
  := by
  have hlater : (List.range n).filterMap (s.executed? limits code ∘ Nat.succ)
      = match (s.cycle limits code).progress s.pc with
        | .inl t => (List.range n).filterMap (t.executed? limits code)
        | .inr _ => [] := by
    have hsucc : s.executed? limits code ∘ Nat.succ = fun k =>
        match (s.cycle limits code).progress s.pc with
        | .inl t => t.executed? limits code k
        | .inr _ => none := by
      funext k
      apply executed?_succ
    rw [hsucc]
    cases (s.cycle limits code).progress s.pc with
    | inl t => rfl
    | inr f => apply List.filterMap_none
  have hfirst : s.executed? limits code 0 = (s.fetch limits code).toOption := rfl
  rw [List.range_succ_eq_map, List.filterMap_cons, List.filterMap_map, hfirst, hlater]
  cases s.fetch limits code <;> rfl

/-- The events of a run that ends are a step for each instruction that it executes, and then
the end. -/
theorem events_eq_map {n : Nat} {f : Finished} (h : s.proceed limits code n = .inr f) :
  ∃ passed : List (State × Instruction Nat),
    s.events limits code n
      = passed.map (fun p => .step p.1.pc p.2 p.1.stack p.1.memory)
        ++ [.runEnd f.outcome f.state.steps]
    ∧ f.state.steps = s.steps + passed.length
    ∧ passed.map Prod.snd = (List.range n).filterMap (s.executed? limits code)
    ∧ ∀ p ∈ passed, p.1.fetch limits code = .ok p.2
  := by
  -- a cycle that fetches gives a step even if it faults, one that does not gives the end alone
  induction n generalizing s with
  | zero => cases h
  | succ n ih =>
    rw [proceed] at h
    rw [filterMap_executed?_succ, events]
    cases hi : s.fetch limits code with
    | error fault =>
      rw [cycle_of_fetch_error hi] at h ⊢
      cases h
      exact ⟨[], rfl, rfl, rfl, by simp⟩
    | ok i =>
      have hsteps := steps_of_fetch hi
      rw [← Step.state_progress s.pc] at hsteps
      cases hp : (s.cycle limits code).progress s.pc with
      | inr g =>
        rw [hp] at h hsteps
        cases h
        exact ⟨[(s, i)], rfl, hsteps, rfl, by simpa using hi⟩
      | inl u =>
        rw [hp] at h hsteps
        obtain ⟨passed, hevents, hlength, hinstructions, hfetch⟩ := ih h
        refine ⟨(s, i) :: passed, ?_, ?_, ?_, List.forall_mem_cons.mpr ⟨hi, hfetch⟩⟩
        · simp only
          rw [hevents]
          rfl
        · change u.steps = s.steps + 1 at hsteps
          rw [hlength, hsteps, List.length_cons]
          omega
        · rw [List.map_cons, hinstructions]
          rfl

end State

namespace Machine

/-- The instruction that a machine executes in a cycle of its run. -/
def executed? (m : Machine) (n : Nat) : Option (Instruction Nat) :=
  State.initial.executed? m.limits m.code.toArray n

/-- How often a machine executes an instruction with an opcode in a number of cycles. -/
def executions (m : Machine) (n : Nat) (o : Opcode) : Nat :=
  (List.range n).countP fun k => (m.executed? k).map Instruction.opcode = some o

variable {data : List Datum} {options : MachineOptions} {m : Machine}

/-- The events of a run that has ended, and the instructions that it has executed. -/
theorem events_eq_map (hm : m.started = false) (htraced : m.traced = true) {n : Nat}
    {r : RunResult} {m' : Machine} (h : m.run n = .ok (some (r, m'))) :
  ∃ passed : List (State × Instruction Nat),
    m'.events = .runStart m.code.length
      :: (passed.map (fun p => .step p.1.pc p.2 p.1.stack p.1.memory)
        ++ [.runEnd r.outcome r.steps])
    ∧ r.steps = passed.length
    ∧ (∀ o, (passed.map fun p => p.2.opcode).count o = m.executions n o)
    ∧ ∀ p ∈ passed, p.1.pc < m.code.length
  := by
  obtain ⟨f, hp, rfl, rfl⟩ := run_eq_some hm h
  obtain ⟨passed, hevents, hlength, hinstructions, hfetch⟩ := State.events_eq_map hp
  refine ⟨passed, ?_, ?_, ?_, ?_⟩
  · rw [follow_snd htraced, hevents]
  · rw [← Nat.zero_add passed.length]
    apply hlength
  · intro o
    have hopcodes : (passed.map fun p => p.2.opcode)
        = ((List.range n).filterMap m.executed?).map Instruction.opcode := by
      change _ = ((List.range n).filterMap
        (State.initial.executed? m.limits m.code.toArray)).map Instruction.opcode
      rw [← hinstructions, List.map_map]
      rfl
    rw [hopcodes, List.count_eq_countP, List.countP_map, List.countP_filterMap, executions]
    congr 1
    funext k
    cases m.executed? k with
    | none => rfl
    | some i => simp [beq_eq_decide]
  · intro p hp
    have hi := (State.fetch_eq_ok.mp (hfetch p hp)).1
    apply (Array.getElem?_eq_some_iff.mp hi).1

/-- The place of the instruction at which a run faults is at most the length of the code, or the
target of one of its jumps. -/
theorem index_of_run (hm : Machine.create data options = .ok m) {n : Nat} {r : RunResult}
    {m' : Machine} (h : m.run n = .ok (some (r, m'))) {fault : Fault} {index : Nat}
    (hfault : r.outcome = .faulted fault index) :
  index ≤ m.code.length ∨ ∃ i ∈ m.code, i.target? = some index
  := by
  obtain ⟨f, hp, rfl, -⟩ := run_eq_some (not_started_of_create hm) h
  obtain ⟨k, t, ht, -, rfl⟩ := State.EndsIn.last_faulted ⟨n, hp⟩ hfault
  rcases (isBounded_of_passes hm (.between ht)).pc with hpc | ⟨i, hi, htarget⟩
  · left
    apply hpc
  · right
    exact ⟨i, List.mem_toArray.mp hi, htarget⟩

end Machine

end StackMachine
