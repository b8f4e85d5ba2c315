import StackMachine.Proofs.Machine.Cause
import StackMachine.Proofs.Machine.Options
import StackMachine.Proofs.Machine.Reach
import StackMachine.Proofs.Structure

/-!
# Larger limits

Limits bound how far a machine may run and grow, and change nothing else.  A run that ends
without meeting one of its limits ends in the same way and in the same state within larger
limits, and a limit of steps either leaves a run as it is or cuts it off.
-/

namespace StackMachine

/-! ### The order of limits -/

/-- Limits within others: the memory and the heap are no larger, and a limit of steps is no
greater, where none is greater than all. -/
structure Limits.Within (l l' : Limits) : Prop where
  steps : ∀ n', l'.maxSteps = some n' → ∃ n, l.maxSteps = some n ∧ n ≤ n'
  memory : l.memory ≤ l'.memory
  heap : l.heap ≤ l'.heap

/-- Limits are within the same limits without a limit of steps. -/
theorem Limits.within_unlimited (l : Limits) :
  l.Within { l with maxSteps := none }
  := by
  constructor
  · rintro n' ⟨⟩
  · apply Nat.le_refl
  · apply Nat.le_refl

/-- The codes of the faults that depend on limits. -/
def FaultCode.IsLimit (c : FaultCode) : Prop := c = .stepLimit ∨ c = .address ∨ c = .alloc

/-- A run ends at one of its limits. -/
def Outcome.MeetsLimit : Outcome → Prop
  | halted => False
  | faulted fault _ => fault.code.IsLimit

/-- A step meets one of the limits. -/
def Step.MeetsLimit : Step → Prop
  | faulted fault _ => fault.code.IsLimit
  | _ => False

namespace State

variable {l l' : Limits} {code : Array (Instruction Nat)} {s : State}

/-! ### Instructions -/

/-- A word that is an address is one in a larger memory. -/
theorem withAddress_of_within (h : l.Within l') {w : Int} {next : Nat → Step}
    (hlimit : ¬ (s.withAddress l w next).MeetsLimit) :
  s.withAddress l' w next = s.withAddress l w next
  := by
  have hmemory := h.memory
  rw [withAddress] at hlimit
  rw [withAddress, withAddress]
  split at hlimit
  · cases hlimit (.inr (.inl rfl))
  · rw [if_neg (by omega), if_neg ‹_›]

/-- What comes after a word is taken does the same if it does without the limits. -/
theorem withPop_congr {next next' : Int → State → Step}
    (h : ∀ w t, ¬ (next w t).MeetsLimit → next' w t = next w t)
    (hlimit : ¬ (s.withPop next).MeetsLimit) :
  s.withPop next' = s.withPop next
  := by
  rw [withPop] at hlimit
  rw [withPop, withPop]
  split at hlimit
  · rfl
  · apply h _ _ hlimit

/-- An instruction that does not meet a limit does the same within larger limits. -/
theorem execute_of_within (h : l.Within l') {i : Instruction Nat}
    (hlimit : ¬ (s.execute l i).MeetsLimit) :
  s.execute l' i = s.execute l i
  := by
  cases i with
  | load | store =>
    rw [execute] at hlimit
    rw [execute, execute]
    apply withPop_congr _ hlimit
    intro w t
    apply withAddress_of_within h
  | new =>
    have hheap := h.heap
    rw [execute] at hlimit
    rw [execute, execute]
    apply withPop_congr _ hlimit
    intro w t hlimit
    simp only at hlimit ⊢
    split at hlimit
    · cases hlimit (.inr (.inr rfl))
    · rw [if_neg (by omega), if_neg ‹_›]
  | loadc | pop | jump | jumpz | halt | binary | unary => rfl

/-! ### Runs -/

/-- What is fetched is fetched within larger limits, and what is missing is missing there. -/
theorem fetch_of_within (h : l.Within l')
    (hlimit : ∀ fault, s.fetch l code = .error fault → ¬ fault.code.IsLimit) :
  s.fetch l' code = s.fetch l code
  := by
  have hnone : l.maxSteps.filter (· ≤ s.steps) = none := by
    cases hfilter : l.maxSteps.filter (· ≤ s.steps) with
    | none => rfl
    | some limit =>
      cases hlimit (.stepLimit limit) (by rw [fetch, hfilter]) (.inl rfl)
  have hnone' : l'.maxSteps.filter (· ≤ s.steps) = none := by
    rw [Option.filter_eq_none_iff] at hnone ⊢
    intro n' hn'
    obtain ⟨n, hn, hle⟩ := h.steps n' hn'
    have := hnone n hn
    simp only [decide_eq_true_eq] at this ⊢
    omega
  rw [fetch, fetch, hnone, hnone']

/-- A cycle that does not meet a limit is the same within larger limits. -/
theorem cycle_of_within (h : l.Within l') (hlimit : ¬ (s.cycle l code).MeetsLimit) :
  s.cycle l' code = s.cycle l code
  := by
  have hfetch : s.fetch l' code = s.fetch l code := by
    apply fetch_of_within h
    intro fault hfault
    rw [cycle_of_fetch_error hfault] at hlimit
    apply hlimit
  cases hi : s.fetch l code with
  | error fault =>
    rw [hi] at hfetch
    rw [cycle_of_fetch_error hi, cycle_of_fetch_error hfetch]
  | ok i =>
    rw [hi] at hfetch
    rw [cycle_of_fetch hi] at hlimit
    rw [cycle_of_fetch hi, cycle_of_fetch hfetch]
    apply execute_of_within h hlimit

/-- A run that has not met a limit is the same within larger limits. -/
theorem proceed_of_within (h : l.Within l') {n : Nat}
    (hlimit : ∀ f, s.proceed l code n = .inr f → ¬ f.outcome.MeetsLimit) :
  s.proceed l' code n = s.proceed l code n
  := by
  induction n generalizing s with
  | zero => rfl
  | succ n ih =>
    rw [proceed] at hlimit
    have hcycle : s.cycle l' code = s.cycle l code := by
      apply cycle_of_within h
      cases hc : s.cycle l code with
      | running t => exact id
      | halted t => exact id
      | faulted fault t =>
        rw [hc] at hlimit
        apply hlimit _ rfl
    rw [proceed, proceed, hcycle]
    cases hp : (s.cycle l code).progress s.pc with
    | inl t =>
      rw [hp] at hlimit
      apply ih hlimit
    | inr f => rfl

/-- A run that goes on goes on within larger limits. -/
theorem proceed_inl_of_within (h : l.Within l') {n : Nat} {t : State}
    (ht : s.proceed l code n = .inl t) :
  s.proceed l' code n = .inl t
  := by
  rw [← ht]
  apply proceed_of_within h
  rintro f hf
  rw [ht] at hf
  cases hf

/-- A run that ends without meeting a limit ends in the same way within larger limits. -/
theorem EndsIn.of_within (h : l.Within l') {f : Finished} (hf : s.EndsIn l code f)
    (hlimit : ¬ f.outcome.MeetsLimit) :
  s.EndsIn l' code f
  := by
  obtain ⟨n, hn⟩ := hf
  use n
  rw [← hn]
  apply proceed_of_within h
  intro g hg
  rw [hn] at hg
  cases hg
  apply hlimit

end State

/-! ### Limits of steps -/

/-- A run ends where there is no instruction. -/
def Outcome.LeavesCode : Outcome → Prop
  | halted => False
  | faulted fault _ => fault.code = .fetchRange

namespace State

variable {l : Limits} {code : Array (Instruction Nat)} {s : State}

/-- Every cycle counts a step, but for one that finds no instruction. -/
theorem steps_of_last (hl : l.maxSteps = none) {f : Finished}
    (h : (s.cycle l code).progress s.pc = .inr f) :
  f.outcome.LeavesCode ∧ f.state.steps = s.steps
    ∨ ¬ f.outcome.LeavesCode ∧ f.state.steps = s.steps + 1
  := by
  have hturn := turn_cycle l code s
  cases hc : s.cycle l code with
  | running t =>
    rw [hc] at h
    cases h
  | halted t =>
    rw [hc] at h hturn
    cases h
    cases hturn
    right
    exact ⟨id, rfl⟩
  | faulted fault t =>
    rw [hc] at h hturn
    cases h
    rcases cause_of_cycle hc with ⟨hfetch, rfl⟩ | ⟨i, hi, hcause⟩
    · rcases fetch_eq_error hfetch with ⟨limit, hlimit, -⟩ | ⟨-, rfl⟩
      · rw [hl] at hlimit
        cases hlimit
      · left
        exact ⟨rfl, rfl⟩
    · right
      constructor
      · apply hcause.code_ne.1
      · cases hturn with
        | refused hfetch =>
          rw [hi] at hfetch
          cases hfetch
        | faulted hi fault k => rfl

/-- A run that ends after a number of cycles and one more is the same with a greater limit of
steps, and is cut off by a limit up to that number. -/
theorem endsIn_maxSteps_iff (hl : l.maxSteps = none) (hs : s.steps = 0) {n : Nat} {t : State}
    {f : Finished} (ht : s.proceed l code n = .inl t)
    (hlast : (t.cycle l code).progress t.pc = .inr f) (bound : Nat) :
  (s.EndsIn { l with maxSteps := some bound } code f ↔ n < bound)
    ∧ (bound ≤ n → ∃ u, s.EndsIn { l with maxSteps := some bound } code
        ⟨.faulted (.stepLimit bound) u.pc, u⟩ ∧ u.steps = bound)
  := by
  have hcut : bound ≤ n → ∃ u, s.EndsIn { l with maxSteps := some bound } code
      ⟨.faulted (.stepLimit bound) u.pc, u⟩ ∧ u.steps = bound := by
    intro hbound
    have hgoes : s.GoesOn l code n := ⟨t, ht⟩
    apply (hgoes.le hbound).endsIn_maxSteps hl hs
  refine ⟨⟨?_, ?_⟩, hcut⟩
  · intro hf
    by_contra hbound
    obtain ⟨u, hu, hsteps⟩ := hcut (Nat.not_lt.mp hbound)
    cases hf.unique hu
    have htsteps := steps_of_proceed ht
    rcases steps_of_last hl hlast with ⟨hleaves, -⟩ | ⟨-, hcount⟩
    · cases hleaves
    · simp only at hcount
      omega
  · intro hbound
    use n + 1
    rw [proceed_maxSteps hl (by omega), proceed_succ ht, hlast]

end State

/-! ### Machines -/

namespace Machine

variable {m : Machine}

/-- The run of a machine ends exactly as the run from the first state does. -/
theorem ends_iff (hm : m.started = false) {f : Finished} :
  m.Ends f ↔ State.initial.EndsIn m.limits m.code.toArray f
  := by
  constructor
  · rintro ⟨n, m', hrun, hstate⟩
    obtain ⟨g, hp, hresult, rfl⟩ := run_eq_some hm hrun
    use n
    obtain ⟨outcome, t⟩ := f
    obtain rfl : outcome = g.outcome := (RunResult.mk.inj hresult).1
    obtain rfl : g.state = t := hstate
    apply hp
  · apply ends_of_endsIn hm

/-- The machine with a limit of steps instead of its own. -/
def limitSteps (m : Machine) (limit : Option Nat) : Machine :=
  { m with limits := { m.limits with maxSteps := limit } }

/-- The machine with another limit of steps is made with an option that sets it. -/
theorem create_limitSteps {data : List Datum} {options : MachineOptions}
    (hm : Machine.create data options = .ok m) {option : Datum} {limit : Option Nat}
    (hoption : Limits.steps? option = some limit) :
  Machine.create data { options with maxSteps := option } = .ok (m.limitSteps limit)
  := by
  obtain ⟨code, limits, hcode, hlimits, rfl⟩ := create_eq_ok_iff.mp hm
  obtain ⟨-, hmemory, hheap⟩ := Limits.ofOptions_eq_ok hlimits
  apply create_eq_ok_iff.mpr
  refine ⟨code, { limits with maxSteps := limit }, hcode, ?_, rfl⟩
  rw [Limits.ofOptions, hoption, hmemory, hheap]
  rfl

/-- The run of a machine is cut off by a limit of steps. -/
def IsCutOff (m : Machine) (bound : Nat) : Prop :=
  ∃ t, m.Ends ⟨.faulted (.stepLimit bound) t.pc, t⟩ ∧ t.steps = bound

/-- A machine without a limit of steps whose run takes a number of cycles and one more ends in
the same way with a greater limit of steps, and is cut off by a limit up to that number. -/
theorem ends_limitSteps_iff (hm : m.started = false) (hl : m.limits.maxSteps = none)
    {f : Finished} (hf : m.Ends f) (bound : Nat) :
  ∃ n, (f.outcome.LeavesCode ∧ f.state.steps = n ∨ ¬ f.outcome.LeavesCode ∧ f.state.steps = n + 1)
    ∧ ((m.limitSteps (some bound)).Ends f ↔ n < bound)
    ∧ (bound ≤ n → (m.limitSteps (some bound)).IsCutOff bound)
  := by
  have hm' : (m.limitSteps (some bound)).started = false := hm
  obtain ⟨n, t, ht, hlast⟩ := ((ends_iff hm).mp hf).last
  obtain ⟨hiff, hcut⟩ := State.endsIn_maxSteps_iff hl rfl ht hlast bound
  have hsteps : t.steps = n := by
    rw [State.steps_of_proceed ht]
    apply Nat.zero_add
  have hcount := State.steps_of_last hl hlast
  rw [hsteps] at hcount
  refine ⟨n, hcount, (ends_iff hm').trans hiff, ?_⟩
  intro hbound
  obtain ⟨u, hu, hu'⟩ := hcut hbound
  exact ⟨u, ends_of_endsIn hm' hu, hu'⟩

/-- The code of a machine is that of its program, whatever the options. -/
theorem code_of_create {data : List Datum} {options options' : MachineOptions} {m' : Machine}
    (hm : Machine.create data options = .ok m) (hm' : Machine.create data options' = .ok m') :
  m'.code = m.code
  := by
  obtain ⟨code, -, hcode, -, rfl⟩ := create_eq_ok_iff.mp hm
  obtain ⟨code', -, hcode', -, rfl⟩ := create_eq_ok_iff.mp hm'
  rw [hcode] at hcode'
  cases hcode'
  rfl

theorem maxSteps_of_absent {data : List Datum} {options : MachineOptions}
    (hm : Machine.create data options = .ok m) (hoptions : options.maxSteps = .absent) :
  m.limits.maxSteps = none
  := by
  obtain ⟨code, limits, -, hlimits, rfl⟩ := create_eq_ok_iff.mp hm
  have h := (Limits.ofOptions_eq_ok hlimits).1
  rw [hoptions] at h
  injection h with h
  apply h.symm

/-- Limits do not change what a program computes.  A run that ends without meeting one of its
limits ends in the same way and in the same state in a machine with larger limits.  A run
without a limit of steps is the same with a limit that is at least the number of its steps,
or greater if it ends where there is no instruction, and a lesser limit cuts it off. -/
theorem limits_only_bound {data : List Datum} {options : MachineOptions}
    (hm : Machine.create data options = .ok m) {f : Finished} (hf : m.Ends f) :
  (∀ options' m', Machine.create data options' = .ok m' → m.limits.Within m'.limits →
      ¬ f.outcome.MeetsLimit → m'.Ends f)
    ∧ (options.maxSteps = .absent → ∀ option bound, Limits.steps? option = some (some bound) →
      ∃ m', Machine.create data { options with maxSteps := option } = .ok m'
        ∧ (¬ f.outcome.LeavesCode →
          (m'.Ends f ↔ f.state.steps ≤ bound) ∧ (bound < f.state.steps → m'.IsCutOff bound))
        ∧ (f.outcome.LeavesCode →
          (m'.Ends f ↔ f.state.steps < bound) ∧ (bound ≤ f.state.steps → m'.IsCutOff bound)))
  := by
  have hstarted := not_started_of_create hm
  constructor
  · intro options' m' hm' hwithin hlimit
    apply (ends_iff (not_started_of_create hm')).mpr
    rw [code_of_create hm hm']
    apply ((ends_iff hstarted).mp hf).of_within hwithin hlimit
  · intro hoptions option bound hoption
    obtain ⟨n, hcount, hiff, hcut⟩ :=
      ends_limitSteps_iff hstarted (maxSteps_of_absent hm hoptions) hf bound
    refine ⟨_, create_limitSteps hm hoption, ?_, ?_⟩
    · intro hleaves
      have hsteps := (hcount.resolve_left fun h => hleaves h.1).2
      rw [hsteps]
      exact ⟨hiff, fun hbound => hcut (Nat.le_of_lt_succ hbound)⟩
    · intro hleaves
      have hsteps := (hcount.resolve_right fun h => h.1 hleaves).2
      rw [hsteps]
      exact ⟨hiff, hcut⟩

/-- A program that fills its memory and its heap and then jumps past its end does so after
five steps within larger limits too, and with a limit of six steps; a limit of five cuts it
off. -/
theorem limits_only_bound_past_end :
  ∃ f m₁ m₂ m₃, f.outcome = .faulted (.fetchRange 9 5) 9 ∧ f.state.heap.size = 5
    ∧ Machine.create (Code.toProgram [.loadc 5, .loadc 0, .store, .new, .jump 9]).toData {}
      = .ok m₁
    ∧ m₁.Ends f
    ∧ Machine.create (Code.toProgram [.loadc 5, .loadc 0, .store, .new, .jump 9]).toData
      { maxSteps := .number (.int 6) } = .ok m₂
    ∧ m₂.Ends f
    ∧ Machine.create (Code.toProgram [.loadc 5, .loadc 0, .store, .new, .jump 9]).toData
      { maxSteps := .number (.int 5) } = .ok m₃
    ∧ m₃.IsCutOff 5
  := by
  have hcode : ∀ i ∈ ([.loadc 5, .loadc 0, .store, .new, .jump 9] : Code), i.IsWellFormed := by
    simp [Instruction.IsWellFormed, Word.IsWord, Word.least, Word.greatest]
  have hm : Machine.create (Code.toProgram [.loadc 5, .loadc 0, .store, .new, .jump 9]).toData
      { memoryLimit := .number (.int 1), heapLimit := .number (.int 5) } = .ok _ :=
    create_toProgram hcode rfl
  have hm₁ : Machine.create (Code.toProgram [.loadc 5, .loadc 0, .store, .new, .jump 9]).toData
      {} = .ok _ := create_toProgram hcode rfl
  let f : Finished := ⟨.faulted (.fetchRange 9 5) 9, 9, [0], #[5], #[0, 0, 0, 0, 0], 5⟩
  have hleaves : f.outcome.LeavesCode := rfl
  have hf : Ends (ofCode [.loadc 5, .loadc 0, .store, .new, .jump 9] ⟨none, 1, 5⟩ "run" false)
      f := ⟨6, _, rfl, rfl⟩
  have hlimit : ¬ f.outcome.MeetsLimit := by
    rintro (h | h | h) <;> cases h
  have hf₁ := (limits_only_bound hm hf).1 {} _ hm₁ ⟨nofun, by decide, by decide⟩ hlimit
  obtain ⟨m₂, hm₂, -, hends⟩ := (limits_only_bound hm₁ hf₁).2 rfl (.number (.int 6)) 6 rfl
  obtain ⟨m₃, hm₃, -, hcut⟩ := (limits_only_bound hm₁ hf₁).2 rfl (.number (.int 5)) 5 rfl
  exact ⟨f, _, m₂, m₃, rfl, rfl, hm₁, hf₁, hm₂, (hends hleaves).1.mpr (by decide), hm₃,
    (hcut hleaves).2 (by decide)⟩

end Machine

end StackMachine
