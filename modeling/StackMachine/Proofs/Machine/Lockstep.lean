import StackMachine.Proofs.Machine.Ideal
import StackMachine.Proofs.Structure

/-!
# Lock step

Since every instruction does the same to a state and to the ideal state that it represents,
so do cycles, and so do whole runs.  The mark of the ideal machine, which is the size of the
memory, is one more than the greatest address that has been used.
-/

namespace StackMachine

variable {limits : Limits} {code : Array (Instruction Nat)}

/-! ### Cycles and runs -/

namespace State

theorem represents_initial :
  initial.Represents Ideal.initial
  := by
  constructor
  · rfl
  · rfl
  · rintro a ⟨⟩
  · intro a _
    rfl
  · rfl
  · rfl
  · rfl

theorem Represents.advance {s : State} {t : Ideal} (h : s.Represents t) :
  s.advance.Represents { t with pc := t.pc + 1, steps := t.steps + 1 }
  := { h with
    pc := congrArg (· + 1) h.pc
    steps := congrArg (· + 1) h.steps }

/-- A cycle does the same to a state and to the ideal state that it represents. -/
theorem Represents.cycle {s : State} {t : Ideal} (h : s.Represents t) :
  ((s.cycle limits code).progress s.pc).Agrees (t.cycle limits code)
  := by
  rw [State.cycle, State.fetch, Ideal.cycle, ← h.steps, ← h.pc]
  cases limits.maxSteps.filter (· ≤ s.steps) with
  | some limit => apply Progress.Agrees.ended _ h
  | none =>
    cases code[s.pc]? with
    | none => apply Progress.Agrees.ended _ h
    | some i =>
      apply Represents.execute
      rw [h.pc, h.steps]
      apply h.advance

/-- The runs from a state and from the ideal state that it represents agree after every
number of cycles. -/
theorem Represents.proceed (n : Nat) {s : State} {t : Ideal} (h : s.Represents t) :
  (s.proceed limits code n).Agrees (t.proceed limits code n)
  := by
  induction n generalizing s t with
  | zero => apply Progress.Agrees.running h
  | succ n ih =>
    have hcycle := @Represents.cycle limits code s t h
    rw [State.proceed, Ideal.proceed]
    generalize (s.cycle limits code).progress s.pc = p, t.cycle limits code = q at hcycle
    cases hcycle with
    | running h' => apply ih h'
    | ended outcome h' => apply Progress.Agrees.ended outcome h'

/-! ### Use of the memory and of the heap -/

/-- Only an instruction that uses an address changes the size of the memory, and it makes
room for that address. -/
theorem Effect.memory_size {i : Instruction Nat} {s t : State} (h : Effect limits i s t) :
  (i = .load ∨ i = .store)
      ∧ (∃ (a : Nat) (r : List Int), s.stack = (a : Int) :: r
        ∧ t.memory.size = max s.memory.size (a + 1))
    ∨ i ≠ .load ∧ i ≠ .store ∧ t.memory.size = s.memory.size
  := by
  cases h with
  | @load _ a r hs ha => exact .inl ⟨.inl rfl, a, r, hs, size_growTo _ _⟩
  | @store _ a w r hs ha =>
    refine .inl ⟨.inr rfl, a, w :: r, hs, ?_⟩
    rw [Array.size_setIfInBounds, size_growTo]
  | loadc | pop | new | jump | jumpzTaken | jumpzPassed | binary | unary =>
    exact .inr ⟨nofun, nofun, rfl⟩

end State

namespace Machine

/-- The `k`-th instruction of the run of a machine is a load or a store that succeeds, at an
address. -/
def Uses (m : Machine) (k a : Nat) : Prop :=
  ∃ s t i r, m.progress k = .inl s ∧ m.progress (k + 1) = .inl t
    ∧ m.code[s.pc]? = some i ∧ (i = .load ∨ i = .store) ∧ s.stack = (a : Int) :: r

/-- A size that is one more than the greatest address used by the first `n` instructions of
the run, or 0 if there is none. -/
structure IsHighWater (m : Machine) (n size : Nat) : Prop where
  above : ∀ k a, k < n → m.Uses k a → a < size
  reached : size = 0 ∨ ∃ k, k < n ∧ m.Uses k (size - 1)

variable {m : Machine}

/-- An instruction that uses no address keeps the high-water mark. -/
theorem IsHighWater.keep {n size : Nat} (h : m.IsHighWater n size) (hn : ∀ a, ¬ m.Uses n a) :
  m.IsHighWater (n + 1) size
  := by
  constructor
  · intro k a hk ha
    rcases Nat.lt_succ_iff_lt_or_eq.mp hk with hk | rfl
    · apply h.above k a hk ha
    · cases hn a ha
  · rcases h.reached with h | ⟨k, hk, ha⟩
    · left
      apply h
    · right
      exact ⟨k, Nat.lt_succ_of_lt hk, ha⟩

/-- An instruction uses one address at most. -/
theorem Uses.unique {k a b : Nat} (ha : m.Uses k a) (hb : m.Uses k b) :
  a = b
  := by
  obtain ⟨s, -, -, r, hs, -, -, -, hstack⟩ := ha
  obtain ⟨s', -, -, r', hs', -, -, -, hstack'⟩ := hb
  rw [hs] at hs'
  cases hs'
  rw [hstack] at hstack'
  injection hstack' with h
  apply Int.ofNat.inj h

/-- An instruction that uses an address raises the high-water mark above it. -/
theorem IsHighWater.raise {n size a : Nat} (h : m.IsHighWater n size) (ha : m.Uses n a) :
  m.IsHighWater (n + 1) (max size (a + 1))
  := by
  constructor
  · intro k b hk hb
    rcases Nat.lt_succ_iff_lt_or_eq.mp hk with hk | rfl
    · have := h.above k b hk hb
      omega
    · rw [hb.unique ha]
      omega
  · right
    by_cases hsize : size ≤ a + 1
    · rw [Nat.max_eq_right hsize]
      exact ⟨n, Nat.lt_succ_self n, ha⟩
    · rw [Nat.max_eq_left (by omega)]
      obtain h | ⟨k, hk, hb⟩ := h.reached
      · omega
      · exact ⟨k, Nat.lt_succ_of_lt hk, hb⟩

/-- The progress of a machine that goes on after `n` cycles is one cycle further. -/
theorem progress_succ {n : Nat} {s : State} (h : m.progress n = .inl s) :
  m.progress (n + 1) = (s.cycle m.limits m.code.toArray).progress s.pc
  := State.proceed_succ h

/-- A machine that goes on from one state to another executes an instruction with that
effect. -/
theorem effect_of_progress {n : Nat} {s t : State} (hs : m.progress n = .inl s)
    (ht : m.progress (n + 1) = .inl t) :
  ∃ i, m.code[s.pc]? = some i ∧ State.Effect m.limits i s.advance t
  := by
  rw [progress_succ hs] at ht
  have hturn := State.turn_cycle m.limits m.code.toArray s
  generalize s.cycle m.limits m.code.toArray = r at ht hturn
  cases hturn with
  | @running i u hi heffect =>
    cases ht
    use i
    constructor
    · rw [← List.getElem?_toArray]
      apply (State.fetch_eq_ok.mp hi).1
    · apply heffect
  | refused | halted | faulted => cases ht

/-- A run ends with the memory as it was before its last cycle. -/
theorem memory_of_progress {n : Nat} {s : State} {f : Finished} (hs : m.progress n = .inl s)
    (hf : m.progress (n + 1) = .inr f) :
  f.state.memory = s.memory
  := by
  rw [progress_succ hs] at hf
  have hturn := State.turn_cycle m.limits m.code.toArray s
  generalize s.cycle m.limits m.code.toArray = r at hf hturn
  cases hturn with
  | running => cases hf
  | refused | halted | faulted =>
    cases hf
    rfl

/-- The size of the memory is the high-water mark of the run. -/
theorem isHighWater_progress (m : Machine) (n : Nat) :
  m.IsHighWater n (m.progress n).state.memory.size
  := by
  induction n with
  | zero =>
    constructor
    · rintro k a ⟨⟩
    · left
      rfl
  | succ n ih =>
    -- an address is used only if the run goes on through both cycles
    cases hs : m.progress n with
    | inr f =>
      rw [hs] at ih
      rw [show m.progress (n + 1) = .inr f from State.proceed_of_inr hs (Nat.le_succ n)]
      apply ih.keep
      rintro a ⟨s, -, -, -, hs', -⟩
      rw [hs] at hs'
      cases hs'
    | inl s =>
      rw [hs] at ih
      cases ht : m.progress (n + 1) with
      | inr f =>
        rw [Progress.state, memory_of_progress hs ht]
        apply ih.keep
        rintro a ⟨-, t, -, -, -, ht', -⟩
        rw [ht] at ht'
        cases ht'
      | inl t =>
        obtain ⟨i, hi, heffect⟩ := effect_of_progress hs ht
        rcases heffect.memory_size with ⟨hkind, a, r, hstack, hsize⟩ | ⟨hload, hstore, hsize⟩
        · rw [Progress.state, hsize]
          apply ih.raise
          exact ⟨s, t, i, r, hs, ht, hi, hkind, hstack⟩
        · rw [Progress.state, hsize]
          apply ih.keep
          rintro a ⟨s', -, i', -, hs', -, hi', hkind, -⟩
          rw [hs] at hs'
          cases hs'
          rw [hi] at hi'
          cases hi'
          rcases hkind with rfl | rfl
          · apply hload rfl
          · apply hstore rfl

/-! ### Lock step of machines -/

/-- The progress of the ideal machine with the code and the limits of a machine. -/
def ideal (m : Machine) (n : Nat) : Ideal.Progress :=
  Ideal.initial.proceed m.limits m.code.toArray n

/-- An allocation puts the count of the words allocated before on the stack. -/
theorem stack_of_new {n : Nat} {s t : State} (hs : m.progress n = .inl s)
    (ht : m.progress (n + 1) = .inl t) (hi : m.code[s.pc]? = some .new) :
  ∃ w r, s.stack = w :: r ∧ t.stack = (s.heap.size : Int) :: r
  := by
  obtain ⟨i, hi', heffect⟩ := effect_of_progress hs ht
  rw [hi] at hi'
  cases hi'
  cases heffect with
  | new hstack _ => exact ⟨_, _, hstack, rfl⟩

/-- What a run gives agrees with the ideal machine: it is undecided as long as the ideal
machine goes on, and ends as the ideal machine does. -/
theorem agrees_run (hm : m.started = false) {n : Nat} (h : (m.progress n).Agrees (m.ideal n)) :
  (m.run n = .ok none ↔ ∃ u, m.ideal n = .inl u)
    ∧ ∀ r m', m.run n = .ok (some (r, m')) →
      ∃ u, m.ideal n = .inr (r.outcome, u) ∧ r.steps = u.steps ∧ m'.state.Represents u
  := by
  rw [run_eq hm]
  generalize m.progress n = p, m.ideal n = q at h
  cases h with
  | @running s u h =>
    constructor
    · constructor
      · intro _
        use u
      · intro _
        rfl
    · rintro r m' ⟨⟩
  | @ended s u outcome h =>
    constructor
    · constructor
      · rintro ⟨⟩
      · rintro ⟨_, ⟨⟩⟩
    · rintro r m' ⟨⟩
      exact ⟨u, rfl, h.steps, h⟩

/-- A machine and the ideal machine are in lock step: after any number of cycles their
progress agrees, and so does what the run gives; the size of the memory is the high-water
mark of the addresses used so far; and an allocation puts the count of the ideal machine
before the allocation on the stack. -/
theorem lockstep {data : List Datum} {options : MachineOptions}
    (hm : Machine.create data options = .ok m) (n : Nat) :
  (m.progress n).Agrees (m.ideal n)
    ∧ m.IsHighWater n (m.progress n).state.memory.size
    ∧ (∀ s t u, m.progress n = .inl s → m.progress (n + 1) = .inl t → m.ideal n = .inl u →
      m.code[s.pc]? = some .new → ∃ w r, s.stack = w :: r ∧ t.stack = (u.heap : Int) :: r)
    ∧ (m.run n = .ok none ↔ ∃ u, m.ideal n = .inl u)
    ∧ ∀ r m', m.run n = .ok (some (r, m')) →
      ∃ u, m.ideal n = .inr (r.outcome, u) ∧ r.steps = u.steps ∧ m'.state.Represents u
  := by
  have hagrees : (m.progress n).Agrees (m.ideal n) := State.represents_initial.proceed n
  refine ⟨hagrees, m.isHighWater_progress n, ?_, agrees_run (not_started_of_create hm) hagrees⟩
  intro s t u hs ht hu hi
  rw [hs, hu] at hagrees
  cases hagrees with
  | running h =>
    obtain ⟨w, r, hstack, hstack'⟩ := stack_of_new hs ht hi
    rw [h.heap, Array.size_replicate] at hstack'
    exact ⟨w, r, hstack, hstack'⟩

/-- The lock step of a program that stores far beyond the end of its memory, loads below it
and allocates twice. -/
theorem lockstep_store_load_new :
  ∃ m s u, Machine.create (Code.toProgram [.loadc 5, .loadc 3, .store, .new, .loadc 1, .load,
      .new, .halt]).toData {} = .ok m
    ∧ m.progress 7 = .inl s ∧ m.ideal 7 = .inl u ∧ s.Represents u
    ∧ s.memory = #[0, 0, 0, 5] ∧ s.stack = [5, 0] ∧ m.IsHighWater 7 4
  := by
  have hcode : ∀ i ∈ ([.loadc 5, .loadc 3, .store, .new, .loadc 1, .load, .new, .halt] : Code),
      i.IsWellFormed := by
    simp [Instruction.IsWellFormed, Word.IsWord, Word.least, Word.greatest]
  have hm : Machine.create (Code.toProgram [.loadc 5, .loadc 3, .store, .new, .loadc 1, .load,
      .new, .halt]).toData {} = .ok _ := create_toProgram hcode rfl
  obtain ⟨hagrees, hmark, -⟩ := lockstep hm 7
  refine ⟨_, _, _, hm, rfl, rfl, ?_, rfl, rfl, hmark⟩
  cases hagrees with
  | running h => apply h

end Machine

end StackMachine
