import StackMachine.Proofs.Machine.Effect
import StackMachine.Proofs.Machine.Options
import StackMachine.Proofs.Structure
import StackMachine.Proofs.Word

/-!
# Bounds of a machine

In every state that a machine passes, the words on the stack, in the memory and in the heap
are words, the memory, the heap and the steps keep within the limits, and the machine is at
a place of its program, at the end of it, or where some jump leads.  A cycle preserves all
of this.
-/

namespace StackMachine

open Word

/-! ### Regions -/

/-- A region that is lengthened holds its words and zeros. -/
theorem isWord_of_mem_growTo {region : Array Int} {n : Nat} (h : ∀ w ∈ region, IsWord w) :
  ∀ w ∈ growTo region n, IsWord w
  := by
  intro w hw
  rcases Array.mem_append.mp hw with hw | hw
  · apply h w hw
  · rw [Array.mem_replicate] at hw
    rw [hw.2]
    apply isWord_zero

/-- What is read from a region of words is a word. -/
theorem isWord_getD {region : Array Int} (h : ∀ w ∈ region, IsWord w) (n : Nat) :
  IsWord (region.getD n 0)
  := by
  rw [Array.getD_eq_getD_getElem?]
  cases hn : region[n]? with
  | none => apply isWord_zero
  | some w => apply h w (Array.mem_of_getElem? hn)

/-! ### The invariant -/

/-- A state within the bounds that limits and code set. -/
structure State.IsBounded (limits : Limits) (code : Array (Instruction Nat)) (s : State) :
    Prop where
  stack : ∀ w ∈ s.stack, IsWord w
  memory : ∀ w ∈ s.memory, IsWord w
  heap : ∀ w ∈ s.heap, IsWord w
  memory_size : s.memory.size ≤ limits.memory
  heap_size : s.heap.size ≤ limits.heap
  steps : ∀ limit, limits.maxSteps = some limit → s.steps ≤ limit
  pc : s.pc ≤ code.size ∨ ∃ i ∈ code, i.target? = some s.pc

namespace State

variable {limits : Limits} {code : Array (Instruction Nat)}

theorem isBounded_initial :
  IsBounded limits code .initial
  := by
  constructor
  · rintro w ⟨⟩
  · intro w hw
    cases Array.not_mem_empty w hw
  · intro w hw
    cases Array.not_mem_empty w hw
  · apply Nat.zero_le
  · apply Nat.zero_le
  · intro limit _
    apply Nat.zero_le
  · left
    apply Nat.zero_le

/-- Words that are taken from the stack leave a state within its bounds. -/
theorem IsBounded.drop {s : State} (h : IsBounded limits code s) (k : Nat) :
  IsBounded limits code { s with stack := s.stack.drop k }
  := { h with stack := fun w hw => h.stack w (List.mem_of_mem_drop hw) }

/-- The state in which a fetched instruction is executed is within the bounds. -/
theorem IsBounded.advance {s : State} {i : Instruction Nat} (h : IsBounded limits code s)
    (hi : s.fetch limits code = .ok i) :
  IsBounded limits code s.advance
  := by
  obtain ⟨hcode, hsteps⟩ := fetch_eq_ok.mp hi
  have hpc : s.pc < code.size := (Array.getElem?_eq_some_iff.mp hcode).1
  exact { h with
    steps := fun limit hlimit => hsteps limit hlimit
    pc := .inl hpc }

/-- The effect of an instruction of the code keeps within the bounds. -/
theorem IsBounded.effect {s t : State} {i : Instruction Nat} (h : IsBounded limits code s)
    (hheap : limits.heap ≤ Limits.greatestSize) (hi : i ∈ code) (hw : i.IsWellFormed)
    (ht : Effect limits i s t) :
  IsBounded limits code t
  := by
  have htail : ∀ {w r}, s.stack = w :: r → ∀ v ∈ r, IsWord v := by
    intro w r hs v hv
    apply h.stack v
    rw [hs]
    apply List.mem_cons_of_mem w hv
  cases ht with
  | loadc value =>
    exact { h with stack := List.forall_mem_cons.mpr ⟨hw, h.stack⟩ }
  | @load _ a r hs ha =>
    have hmemory := isWord_of_mem_growTo (n := a + 1) h.memory
    constructor
    · apply List.forall_mem_cons.mpr ⟨isWord_getD hmemory _, htail hs⟩
    · apply hmemory
    · apply h.heap
    · rw [size_growTo]
      apply Nat.max_le.mpr ⟨h.memory_size, ha⟩
    · apply h.heap_size
    · apply h.steps
    · apply h.pc
  | @store _ a w r hs ha =>
    have hw : IsWord w := htail hs w List.mem_cons_self
    constructor
    · apply htail hs
    · intro v hv
      rcases Array.mem_or_eq_of_mem_setIfInBounds hv with hv | rfl
      · apply isWord_of_mem_growTo h.memory v hv
      · apply hw
    · apply h.heap
    · rw [Array.size_setIfInBounds, size_growTo]
      apply Nat.max_le.mpr ⟨h.memory_size, ha⟩
    · apply h.heap_size
    · apply h.steps
    · apply h.pc
  | pop hs => exact { h with stack := htail hs }
  | new hs hn =>
    constructor
    · apply List.forall_mem_cons.mpr ⟨_, htail hs⟩
      have := h.heap_size
      simp only [IsWord, least, greatest, Limits.greatestSize] at hheap ⊢
      omega
    · apply h.memory
    · apply isWord_of_mem_growTo h.heap
    · apply h.memory_size
    · rw [size_growTo]
      apply Nat.max_le.mpr ⟨h.heap_size, hn⟩
    · apply h.steps
    · apply h.pc
  | jump target => exact { h with pc := .inr ⟨_, hi, rfl⟩ }
  | jumpzTaken target hs =>
    exact { h with stack := htail hs, pc := .inr ⟨_, hi, rfl⟩ }
  | jumpzPassed target hs => exact { h with stack := htail hs }
  | @binary _ op a b w r hs happly =>
    have hb : IsWord b := htail hs b List.mem_cons_self
    have hr : ∀ v ∈ r, IsWord v := fun v hv => htail hs v (List.mem_cons_of_mem b hv)
    exact { h with
      stack := List.forall_mem_cons.mpr ⟨BinaryOperator.isWord_apply hb happly, hr⟩ }
  | unary hs happly =>
    exact { h with
      stack := List.forall_mem_cons.mpr ⟨UnaryOperator.isWord_apply happly, htail hs⟩ }

/-- A cycle keeps within the bounds. -/
theorem IsBounded.cycle {s : State} (h : IsBounded limits code s)
    (hheap : limits.heap ≤ Limits.greatestSize) (hcode : ∀ i ∈ code, i.IsWellFormed) :
  IsBounded limits code (s.cycle limits code).state
  := by
  have hturn := turn_cycle limits code s
  generalize s.cycle limits code = r at hturn
  cases hturn with
  | refused => apply h
  | @running i t hi ht =>
    have hmem : i ∈ code := Array.mem_of_getElem? (fetch_eq_ok.mp hi).1
    apply (h.advance hi).effect hheap hmem (hcode i hmem) ht
  | halted hi => apply h.advance hi
  | faulted hi fault k => apply (h.advance hi).drop

end State

/-! ### Machines -/

/-- The states that a machine passes in its run: those between two cycles, those in which an
instruction has been fetched, and the one that is left in the end. -/
inductive Machine.Passes (m : Machine) : State → Prop where
  | between {n : Nat} {s : State} (h : m.progress n = .inl s) : Passes m s
  | fetched {n : Nat} {s : State} {i : Instruction Nat} (h : m.progress n = .inl s)
      (hi : s.fetch m.limits m.code.toArray = .ok i) :
      Passes m { s with pc := s.pc + 1 }
  | ended {n : Nat} {r : RunResult} {m' : Machine} (h : m.run n = .ok (some (r, m'))) :
      Passes m m'.state

namespace Machine

variable {data : List Datum} {options : MachineOptions} {m : Machine}

/-- The states that a machine passes are within its bounds. -/
theorem isBounded_of_passes (hm : Machine.create data options = .ok m) {s : State}
    (hs : m.Passes s) :
  s.IsBounded m.limits m.code.toArray
  := by
  obtain ⟨code, limits, hcode, hlimits, rfl⟩ := create_eq_ok_iff.mp hm
  have hheap : limits.heap ≤ Limits.greatestSize :=
    (Limits.allowsSize_of_size? (Limits.ofOptions_eq_ok hlimits).2.2 (Nat.le_refl _)).greatest
  have hwell : ∀ i ∈ code.toArray, i.IsWellFormed := by
    intro i hi
    obtain ⟨d, -, hd⟩ := Code.exists_isWritten hcode (List.mem_toArray.mp hi)
    apply hd.isWellFormed
  have hprogress (n : Nat) : ((Machine.ofCode code limits options.runId
      options.traced).progress n).state.IsBounded limits code.toArray := by
    apply State.proceed_invariant
    · intro s hs
      apply hs.cycle hheap hwell
    · apply State.isBounded_initial
  cases hs with
  | @between n s h =>
    have := hprogress n
    rw [h] at this
    apply this
  | @fetched n s i h hi =>
    have := hprogress n
    rw [h] at this
    exact { this.advance hi with steps := this.steps }
  | @ended n r m' h =>
    rw [run_eq rfl] at h
    have := hprogress n
    cases hp : (Machine.ofCode code limits options.runId options.traced).progress n with
    | inl s =>
      rw [hp] at h
      cases h
    | inr f =>
      rw [hp] at h this
      cases h
      apply this

/-- In every state that a machine passes, the stack, the memory and the heap hold words, the
sizes of the memory and the heap and the number of steps are allowed by the options, and the
place in the program is at most its length or the target of one of its jumps. -/
theorem passes_bounds (hm : Machine.create data options = .ok m) {s : State}
    (hs : m.Passes s) :
  (∀ w ∈ s.stack, IsWord w) ∧ (∀ w ∈ s.memory, IsWord w) ∧ (∀ w ∈ s.heap, IsWord w)
    ∧ options.memoryLimit.AllowsSize s.memory.size
    ∧ options.heapLimit.AllowsSize s.heap.size
    ∧ options.maxSteps.AllowsSteps s.steps
    ∧ (s.pc ≤ data.length
      ∨ ∃ d ∈ data, ∃ x, jumpTarget? d = some x ∧ x.toIndex? = some s.pc)
  := by
  have h := isBounded_of_passes hm hs
  obtain ⟨code, limits, hcode, hlimits, rfl⟩ := create_eq_ok_iff.mp hm
  obtain ⟨hsteps, hmemory, hheap⟩ := Limits.ofOptions_eq_ok hlimits
  refine ⟨h.stack, h.memory, h.heap, ?_, ?_, ?_, ?_⟩
  · apply Limits.allowsSize_of_size? hmemory h.memory_size
  · apply Limits.allowsSize_of_size? hheap h.heap_size
  · apply Limits.allowsSteps_of_steps? hsteps h.steps
  · rw [Code.length_of_ofData hcode]
    rcases h.pc with hpc | ⟨i, hi, ht⟩
    · left
      apply hpc
    · right
      obtain ⟨d, hd, hwritten⟩ := Code.exists_isWritten hcode (List.mem_toArray.mp hi)
      use d, hd
      apply hwritten.jumpTarget? ht

/-- The bounds hold in the state that is left when one allocation has reached the limit of
the heap and the next one has failed. -/
theorem passes_bounds_full_heap :
  ∃ m s, Machine.create (Code.toProgram [.loadc 2, .new, .loadc 1, .new, .halt]).toData
      { heapLimit := .number (.int 2) } = .ok m
    ∧ m.Passes s ∧ s.heap = #[0, 0] ∧ s.stack = [0]
    ∧ (∀ w ∈ s.heap, IsWord w) ∧ Datum.AllowsSize (.number (.int 2)) s.heap.size
  := by
  have hcode : ∀ i ∈ ([.loadc 2, .new, .loadc 1, .new, .halt] : Code), i.IsWellFormed := by
    simp [Instruction.IsWellFormed, IsWord, least, greatest]
  have hm : Machine.create (Code.toProgram [.loadc 2, .new, .loadc 1, .new, .halt]).toData
      { heapLimit := .number (.int 2) } = .ok _ := create_toProgram hcode rfl
  have hs := Passes.ended (n := 4)
    (m := ofCode [.loadc 2, .new, .loadc 1, .new, .halt] ⟨none, Limits.defaultSize, 2⟩ "run" false) rfl
  obtain ⟨-, -, hwords, -, hsize, -⟩ := passes_bounds hm hs
  exact ⟨_, _, hm, hs, rfl, rfl, hwords, hsize⟩

end Machine

end StackMachine
