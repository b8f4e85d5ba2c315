import StackMachine.Proofs.Machine.Effect
import StackMachine.Proofs.Machine.Options
import StackMachine.Proofs.Machine.Untyped
import StackMachine.Proofs.Structure

/-!
# Soundness of the structural check

A program without structural faults goes wrong only in one way: its stack outgrows what a list can
hold.  Up to there the untyped machine runs it in the same way as the machine that is made of its
code: only integers circulate, and the place of the next instruction is always a position.
-/

namespace StackMachine

/-! ### Programs -/

/-- An instruction of the code of a program is written at the same place of the program. -/
theorem Code.isWritten_getElem? {data : List Datum} {code : Code}
    (h : Code.ofData data = .ok code) {n : Nat} {i : Instruction Nat} (hi : code[n]? = some i) :
  ∃ d, data[n]? = some d ∧ Instruction.IsWritten d i
  := by
  obtain ⟨hn, rfl⟩ := List.getElem?_eq_some_iff.mp hi
  have hn' : n < data.length := Code.length_of_ofData h ▸ hn
  use data[n], List.getElem?_eq_getElem hn'
  apply Instruction.isWritten_of_ofDatum ((Code.ofData_eq_ok_iff.mp h).get hn' hn)

namespace Untyped

/-! ### Related states -/

/-- An untyped state that holds nothing but what a state does: integers, and a position as the
place of the next instruction.  The stack is one that a list can hold. -/
structure State.Carries (u : State) (s : StackMachine.State) : Prop where
  pc : ∃ x, u.pc = .number x ∧ x.toIndex? = some s.pc
  stack : u.stack = s.stack.map .integer
  room : s.stack.length ≤ Limits.greatestSize
  memory : u.memory = s.memory.map .integer
  heap : u.heap = s.heap.map .integer
  steps : u.steps = s.steps

/-- Steps that lead to the same, neither of them wrong. -/
inductive Step.Agrees : Step → StackMachine.Step → Prop where
  | running {u : State} {s : StackMachine.State} (h : u.Carries s) : Agrees (.running u) (.running s)
  | halted {u : State} {s : StackMachine.State} (h : u.Carries s) : Agrees (.halted u) (.halted s)
  | faulted {u : State} {s : StackMachine.State} (fault : Fault) (h : u.Carries s) :
      Agrees (.faulted fault u) (.faulted fault s)

/-- What is known of runs that are the same, and in which nothing has gone wrong. -/
inductive Progress.Agrees : Progress → StackMachine.Progress → Prop where
  | running {u : State} {s : StackMachine.State} (h : u.Carries s) : Agrees (.running u) (.inl s)
  | halted {u : State} {s : StackMachine.State} (h : u.Carries s) :
      Agrees (.halted u) (.inr ⟨.halted, s⟩)
  | faulted {u : State} {s : StackMachine.State} (fault : Fault) {x : Number} {index : Nat}
      (hx : x.toIndex? = some index) (h : u.Carries s) :
      Agrees (.faulted fault (.number x) u) (.inr ⟨.faulted fault index, s⟩)

theorem carries_initial :
  State.initial.Carries .initial
  := by
  refine ⟨⟨.ofNat 0, rfl, rfl⟩, rfl, Nat.zero_le _, ?_, ?_, rfl⟩
  · exact Array.map_empty.symm
  · exact Array.map_empty.symm

/-- A region of integers that is lengthened. -/
theorem withRegion_map {region : Array Int} {size : Nat} {next : Array Datum → Step}
    (hsize : size ≤ Limits.greatestSize) :
  withRegion (region.map .integer) size next = next ((growTo region size).map .integer)
  := by
  rw [withRegion, if_pos hsize, growTo, Array.map_append, Array.map_replicate, Array.size_map]

/-- A word that is read from a region of integers. -/
theorem getD_map_growTo (region : Array Int) (a : Nat) :
  ((growTo region (a + 1)).map Datum.integer)[a]?.getD .absent
    = .integer ((growTo region (a + 1)).getD a 0)
  := by
  have ha : a < (growTo region (a + 1)).size := by
    rw [size_growTo]
    omega
  rw [Array.getElem?_map, Array.getElem?_eq_getElem ha, Array.getD_eq_getD_getElem?,
    Array.getElem?_eq_getElem ha]
  rfl

namespace State

variable {u : State} {s : StackMachine.State} {limits : Limits}

/-- A stack from which a word has been taken has room for one more. -/
theorem Carries.room_tail (h : u.Carries s) {w : Int} {r : List Int} (hs : s.stack = w :: r) :
  r.length < Limits.greatestSize
  := by
  have hroom := h.room
  rw [hs] at hroom
  exact hroom

theorem Carries.withStack (h : u.Carries s) {stack : List Int}
    (hroom : stack.length < Limits.greatestSize) :
  { u with stack := stack.map .integer }.Carries { s with stack }
  := ⟨h.pc, rfl, Nat.le_of_lt hroom, h.memory, h.heap, h.steps⟩

theorem Carries.push (h : u.Carries s) (hroom : s.stack.length < Limits.greatestSize) (w : Int) :
  (u.push (.integer w)).Agrees (.running (s.push w))
  := by
  rw [State.push, if_pos (by rwa [h.stack, List.length_map])]
  apply Step.Agrees.running
  refine ⟨h.pc, ?_, hroom, h.memory, h.heap, h.steps⟩
  rw [h.stack]
  rfl

theorem Carries.withTop (h : u.Carries s) {next : Datum → Step} {next' : Int → StackMachine.Step}
    (hnext : ∀ w r, s.stack = w :: r → (next (.integer w)).Agrees (next' w)) :
  (u.withTop next).Agrees (s.withTop next')
  := by
  rw [State.withTop, StackMachine.State.withTop, h.stack]
  cases hs : s.stack with
  | nil => apply Step.Agrees.faulted _ h
  | cons w r => apply hnext w r hs

theorem Carries.withPop (h : u.Carries s) {next : Datum → State → Step}
    {next' : Int → StackMachine.State → StackMachine.Step}
    (hnext : ∀ w r, s.stack = w :: r → (next (.integer w) { u with stack := r.map .integer }).Agrees
      (next' w { s with stack := r })) :
  (u.withPop next).Agrees (s.withPop next')
  := by
  rw [State.withPop, State.withTop, StackMachine.State.withPop, h.stack]
  cases hs : s.stack with
  | nil => apply Step.Agrees.faulted _ h
  | cons w r => apply hnext w r hs

theorem Carries.withAddress (h : u.Carries s) {w : Int} {next : Nat → Step}
    {next' : Nat → StackMachine.Step}
    (hnext : ∀ a, a < limits.memory → (next a).Agrees (next' a)) :
  (u.withAddress limits (.integer w) next).Agrees (s.withAddress limits w next')
  := by
  rw [State.withAddress, withInteger, StackMachine.State.withAddress]
  split
  · apply Step.Agrees.faulted _ h
  · apply hnext
    omega

theorem Carries.pushResult (h : u.Carries s) (hroom : s.stack.length < Limits.greatestSize)
    (result : Except Fault Int) :
  (u.pushResult result).Agrees (s.pushResult result)
  := by
  cases result with
  | error fault => apply Step.Agrees.faulted _ h
  | ok w => apply h.push hroom

/-! ### Instructions -/

/-- The memory with more words. -/
theorem Carries.withMemory (h : u.Carries s) (memory : Array Int) :
  { u with memory := memory.map .integer }.Carries { s with memory }
  := ⟨h.pc, h.stack, h.room, rfl, h.heap, h.steps⟩

theorem Carries.withHeap (h : u.Carries s) (heap : Array Int) :
  { u with heap := heap.map .integer }.Carries { s with heap }
  := ⟨h.pc, h.stack, h.room, h.memory, rfl, h.steps⟩

theorem Carries.withTarget (h : u.Carries s) {x : Number} {target : Nat}
    (hx : x.toIndex? = some target) :
  { u with pc := .number x }.Carries { s with pc := target }
  := ⟨⟨x, rfl, hx⟩, h.stack, h.room, h.memory, h.heap, h.steps⟩

section

variable (h : u.Carries s) {d : Datum}

include h

theorem Carries.perform_load (hmemory : limits.memory ≤ Limits.greatestSize) :
  (u.perform limits d .load).Agrees (s.execute limits .load)
  := by
  rw [State.perform, StackMachine.State.execute]
  apply h.withPop
  intro w r hs
  have hr := h.room_tail hs
  have h := h.withStack hr
  apply h.withAddress
  intro a ha
  rw [h.memory, withRegion_map (by omega), getD_map_growTo]
  apply (h.withMemory _).push hr

theorem Carries.perform_store (hmemory : limits.memory ≤ Limits.greatestSize) :
  (u.perform limits d .store).Agrees (s.execute limits .store)
  := by
  rw [State.perform, StackMachine.State.execute]
  apply h.withPop
  intro w r hs
  have h := h.withStack (h.room_tail hs)
  apply h.withAddress
  intro a ha
  apply h.withTop
  intro value r' hr'
  rw [h.memory, withRegion_map (by omega), ← Array.map_setIfInBounds]
  apply Step.Agrees.running (h.withMemory _)

theorem Carries.perform_new (hheap : limits.heap ≤ Limits.greatestSize) :
  (u.perform limits d .new).Agrees (s.execute limits .new)
  := by
  rw [State.perform, StackMachine.State.execute]
  apply h.withPop
  intro w r hs
  have hsize : u.heap.size = s.heap.size := by rw [h.heap, Array.size_map]
  have hr := h.room_tail hs
  have h := h.withStack hr
  simp only [withInteger, hsize]
  split
  · apply Step.Agrees.faulted _ h
  · rw [h.heap, withRegion_map (by omega)]
    apply (h.withHeap _).push hr

/-- A jump on zero to a position that is written as a number. -/
theorem Carries.perform_jumpz {x : Number} {target : Nat} (hx : d.field "target" = .number x)
    (hindex : x.toIndex? = some target) :
  (u.perform limits d .jumpz).Agrees (s.execute limits (.jumpz target))
  := by
  rw [State.perform, StackMachine.State.execute, hx]
  apply h.withPop
  intro w r hs
  have h := h.withStack (h.room_tail hs)
  by_cases hw : w = 0
  · subst hw
    rw [if_pos rfl]
    apply Step.Agrees.running (h.withTarget hindex)
  · rw [if_neg hw]
    split
    · next heq =>
      cases heq
      contradiction
    · apply Step.Agrees.running h

theorem Carries.perform_binary (op : BinaryOperator) :
  (u.perform limits d (.binary op)).Agrees (s.execute limits (.binary op))
  := by
  rw [State.perform, StackMachine.State.execute]
  apply h.withPop
  intro a r hs
  have h := h.withStack (h.room_tail hs)
  apply h.withPop
  intro b r' hs'
  have hr' := h.room_tail hs'
  apply (h.withStack hr').pushResult hr'

theorem Carries.perform_unary (op : UnaryOperator) :
  (u.perform limits d (.unary op)).Agrees (s.execute limits (.unary op))
  := by
  rw [State.perform, StackMachine.State.execute]
  apply h.withPop
  intro a r hs
  have hr := h.room_tail hs
  apply (h.withStack hr).pushResult hr

/-- An instruction does to an untyped state what it does to the state, unless it is to put a
constant on a stack without room. -/
theorem Carries.perform {i : Instruction Nat} (hd : Instruction.IsWritten d i)
    (hroom : i.opcode = .loadc → s.stack.length < Limits.greatestSize)
    (hmemory : limits.memory ≤ Limits.greatestSize) (hheap : limits.heap ≤ Limits.greatestSize) :
  (u.perform limits d i.opcode).Agrees (s.execute limits i)
  := by
  cases i with
  | loadc value =>
    rw [Instruction.opcode, State.perform, hd.constant value rfl]
    apply h.push (hroom rfl)
  | load => apply h.perform_load hmemory
  | store => apply h.perform_store hmemory
  | pop =>
    apply h.withPop
    intro w r hs
    apply Step.Agrees.running (h.withStack (h.room_tail hs))
  | new => apply h.perform_new hheap
  | jump target =>
    obtain ⟨x, hx, hindex⟩ := hd.target target rfl
    rw [Instruction.opcode, State.perform, hx]
    apply Step.Agrees.running (h.withTarget hindex)
  | jumpz target =>
    obtain ⟨x, hx, hindex⟩ := hd.target target rfl
    apply h.perform_jumpz hx hindex
  | halt => apply Step.Agrees.halted h
  | binary op => apply h.perform_binary op
  | unary op => apply h.perform_unary op

end

/-- An instruction that is written in an untyped value is executed as the instruction. -/
theorem Carries.execute (h : u.Carries s) {d : Datum} {i : Instruction Nat}
    (hd : Instruction.IsWritten d i)
    (hroom : i.opcode = .loadc → s.stack.length < Limits.greatestSize)
    (hmemory : limits.memory ≤ Limits.greatestSize) (hheap : limits.heap ≤ Limits.greatestSize) :
  (u.execute limits d).Agrees (s.execute limits i)
  := by
  rw [State.execute, hd.opcode]
  simp only [Opcode.ofMnemonic?_mnemonic]
  apply h.perform hd hroom hmemory hheap

/-! ### Runs -/

variable {data : List Datum} {code : Code}

/-- The next instruction is to put a constant on a stack without room. -/
structure IsFull (limits : Limits) (program : List Datum) (u : State) : Prop where
  steps : limits.maxSteps.filter (· ≤ u.steps) = none
  stack : Limits.greatestSize ≤ u.stack.length
  next : ∃ x n d, u.pc = .number x ∧ x.toIndex? = some n ∧ program[n]? = some d
    ∧ d.field "op" = .string "loadc"

/-- A constant that is put on a stack without room makes a run go wrong. -/
theorem IsFull.cycle (h : u.IsFull limits data) :
  u.cycle limits data = .wrong .stack
  := by
  obtain ⟨x, n, d, hpc, hx, hd, hop⟩ := h.next
  have hloadc : Opcode.ofMnemonic? (Text.ofString "loadc") = some .loadc :=
    Opcode.ofMnemonic?_mnemonic .loadc
  rw [State.cycle, h.steps]
  simp only [withPosition, hpc, hx, hd, State.execute, hop, hloadc, State.perform, State.push]
  rw [if_neg (Nat.not_lt.mpr h.stack)]

/-- A cycle does to an untyped state what it does to the state, unless the stack is full. -/
theorem Carries.cycle (h : u.Carries s) (hfull : ¬ u.IsFull limits data)
    (hcode : Code.ofData data = .ok code)
    (hmemory : limits.memory ≤ Limits.greatestSize) (hheap : limits.heap ≤ Limits.greatestSize) :
  (u.cycle limits data).Agrees (s.cycle limits code.toArray)
  := by
  obtain ⟨x, hpc, hx⟩ := h.pc
  rw [State.cycle, StackMachine.State.cycle, StackMachine.State.fetch, h.steps]
  cases hsteps : limits.maxSteps.filter (· ≤ s.steps) with
  | some limit => apply Step.Agrees.faulted _ h
  | none =>
    simp only [withPosition, hpc, hx, List.getElem?_toArray]
    cases hi : code[s.pc]? with
    | none =>
      have hlength := Code.length_of_ofData hcode
      rw [List.getElem?_eq_none (hlength ▸ List.getElem?_eq_none_iff.mp hi), List.size_toArray,
        hlength]
      apply Step.Agrees.faulted _ h
    | some i =>
      obtain ⟨d, hd, hwritten⟩ := Code.isWritten_getElem? hcode hi
      have hroom : i.opcode = .loadc → s.stack.length < Limits.greatestSize := by
        intro hloadc
        by_contra hno
        apply hfull
        refine ⟨h.steps ▸ hsteps, ?_, x, s.pc, d, hpc, hx, hd, ?_⟩
        · rw [h.stack, List.length_map]
          apply Nat.not_lt.mp hno
        · rw [hwritten.opcode, hloadc]
          rfl
      rw [hd]
      have hadvance : { u with pc := .number (.ofNat (s.pc + 1)), steps := s.steps + 1 }.Carries
          s.advance :=
        ⟨⟨_, rfl, Number.toIndex?_ofNat _⟩, h.stack, h.room, h.memory, h.heap, rfl⟩
      apply hadvance.execute hwritten hroom hmemory hheap

/-- A run from an untyped state is the run from the state, until the stack is full. -/
theorem Carries.proceed (h : u.Carries s) (hcode : Code.ofData data = .ok code)
    (hmemory : limits.memory ≤ Limits.greatestSize) (hheap : limits.heap ≤ Limits.greatestSize)
    (n : Nat) :
  (Untyped.proceed limits data n u).Agrees (s.proceed limits code.toArray n)
  ∨ Untyped.proceed limits data n u = .wrong .stack
    ∧ ∃ k, k < n ∧ ∃ t, Untyped.proceed limits data k u = .running t ∧ t.IsFull limits data
  := by
  induction n generalizing u s with
  | zero => exact .inl (Progress.Agrees.running h)
  | succ n ih =>
    by_cases hfull : u.IsFull limits data
    · right
      rw [Untyped.proceed, hfull.cycle]
      exact ⟨rfl, 0, Nat.succ_pos n, u, rfl, hfull⟩
    · have hcycle := h.cycle hfull hcode hmemory hheap
      -- a fault is at the place from before the cycle
      obtain ⟨x, hpc, hx⟩ := h.pc
      have hnext {t : State} (ht : u.cycle limits data = .running t) (k : Nat) :
          Untyped.proceed limits data (k + 1) u = Untyped.proceed limits data k t := by
        rw [Untyped.proceed, ht]
      rw [Untyped.proceed, StackMachine.State.proceed, hpc]
      generalize u.cycle limits data = step at hcycle hnext ⊢
      generalize s.cycle limits code.toArray = step' at hcycle ⊢
      cases hcycle with
      | running h' =>
        rcases ih h' with hagrees | ⟨hwrong, k, hk, t, ht, hfull⟩
        · exact .inl hagrees
        · exact .inr ⟨hwrong, k + 1, Nat.succ_lt_succ hk, t, (hnext rfl k).trans ht, hfull⟩
      | halted h' => exact .inl (Progress.Agrees.halted h')
      | faulted fault h' => exact .inl (Progress.Agrees.faulted fault hx h')

/-- An untyped state in which nothing has lost its type: the place of the next instruction is a
position, and all that is on the stack, in the memory and on the heap is an integer. -/
structure IsTyped (u : State) : Prop where
  pc : ∃ x n, u.pc = .number x ∧ x.toIndex? = some n
  stack : ∀ d ∈ u.stack, ∃ w, d = .integer w
  memory : ∀ d ∈ u.memory, ∃ w, d = .integer w
  heap : ∀ d ∈ u.heap, ∃ w, d = .integer w

theorem Carries.isTyped (h : u.Carries s) :
  u.IsTyped
  := by
  constructor
  · obtain ⟨x, hpc, hx⟩ := h.pc
    exact ⟨x, s.pc, hpc, hx⟩
  · intro d hd
    rw [h.stack, List.mem_map] at hd
    obtain ⟨w, -, rfl⟩ := hd
    use w
  · intro d hd
    rw [h.memory, Array.mem_map] at hd
    obtain ⟨w, -, rfl⟩ := hd
    use w
  · intro d hd
    rw [h.heap, Array.mem_map] at hd
    obtain ⟨w, -, rfl⟩ := hd
    use w

end State

end Untyped

/-! ### Machines -/

/-- A run goes on for ever, or it ends in one way however long it is followed. -/
theorem Untyped.goes_on_or_ends (limits : Limits) (data : List Datum) (u : Untyped.State) :
  (∀ n, ∃ t, Untyped.proceed limits data n u = .running t)
  ∨ ∃ n p, (∀ t, p ≠ .running t) ∧ ∀ k, n ≤ k → Untyped.proceed limits data k u = p
  := by
  by_cases hends : ∃ n, ∀ t, Untyped.proceed limits data n u ≠ .running t
  · obtain ⟨n, h⟩ := hends
    right
    exact ⟨n, _, h, fun k hk => proceed_of_ended h hk⟩
  · left
    intro n
    by_contra h
    exact hends ⟨n, fun t ht => h ⟨t, ht⟩⟩

namespace Machine

variable {data : List Datum} {options : MachineOptions} {limits : Limits} {m : Machine}

/-- The untyped machine runs a program as the machine that is made of the program, until the stack is
full. -/
theorem agrees_progress (hm : Machine.create data options = .ok m)
    (hlimits : Limits.ofOptions options.toLimitOptions = .ok limits) (n : Nat) :
  (Untyped.proceed limits data n .initial).Agrees (m.progress n)
  ∨ Untyped.proceed limits data n .initial = .wrong .stack
    ∧ ∃ k, k < n ∧ ∃ t, Untyped.proceed limits data k .initial = .running t ∧ t.IsFull limits data
  := by
  obtain ⟨code, limits', hcode, hlimits', rfl⟩ := create_eq_ok_iff.mp hm
  rw [hlimits] at hlimits'
  cases hlimits'
  have hallowed := Limits.ofOptions_eq_ok hlimits
  have hmemory := (Limits.allowsSize_of_size? hallowed.2.1 (Nat.le_refl _)).greatest
  have hheap := (Limits.allowsSize_of_size? hallowed.2.2 (Nat.le_refl _)).greatest
  apply Untyped.carries_initial.proceed hcode hmemory hheap

/-- A run of a program goes wrong exactly if it puts a constant on a full stack. -/
theorem goes_wrong_iff (hm : Machine.create data options = .ok m)
    (hlimits : Limits.ofOptions options.toLimitOptions = .ok limits) (n : Nat)
    (w : Untyped.Wrong) :
  Untyped.proceed limits data n .initial = .wrong w
    ↔ w = .stack ∧ ∃ k, k < n ∧ ∃ u, Untyped.proceed limits data k .initial = .running u
      ∧ u.IsFull limits data
  := by
  constructor
  · intro hw
    rcases agrees_progress hm hlimits n with hagrees | ⟨hwrong, hfull⟩
    · rw [hw] at hagrees
      cases hagrees
    · rw [hw] at hwrong
      cases hwrong
      exact ⟨rfl, hfull⟩
  · rintro ⟨rfl, k, hk, u, hu, hfull⟩
    obtain ⟨j, rfl⟩ := Nat.exists_eq_add_of_lt hk
    rw [Nat.add_assoc, Untyped.proceed_of_running hu, Untyped.proceed, hfull.cycle]

/-- The structural check is a gate for untyped programs.  A machine is made of every program that
passes it.  The untyped machine then runs the program as the machine that is made of it, whatever it
is followed for: it goes on, it halts or it faults, and all that it holds has its type.  It goes
wrong only where a constant is put on a stack that is as long as a list can be.  So its run goes on
for ever or ends in one of these ways.  No machine is made of another program, and the reason is what
the check has found, if it tells that. -/
theorem checkStructure_gate (data : List Datum) (options : MachineOptions) :
  (checkStructure data = some [] →
    ∀ limits, Limits.ofOptions options.toLimitOptions = .ok limits →
    ∃ m, Machine.create data options = .ok m
      ∧ (∀ n,
        (∃ u, Untyped.proceed limits data n .initial = .running u ∧ u.IsTyped
          ∧ m.run n = .ok none)
        ∨ (∃ u m', Untyped.proceed limits data n .initial = .halted u ∧ u.IsTyped
          ∧ m.run n = .ok (some (⟨.halted, u.steps⟩, m')))
        ∨ (∃ u m' fault x index,
          Untyped.proceed limits data n .initial = .faulted fault (.number x) u ∧ u.IsTyped
          ∧ x.toIndex? = some index
          ∧ m.run n = .ok (some (⟨.faulted fault index, u.steps⟩, m')))
        ∨ Untyped.proceed limits data n .initial = .wrong .stack)
      ∧ (∀ n w, Untyped.proceed limits data n .initial = .wrong w
        ↔ w = .stack ∧ ∃ k, k < n ∧ ∃ u, Untyped.proceed limits data k .initial = .running u
          ∧ u.IsFull limits data)
      ∧ ((∀ n, ∃ u, Untyped.proceed limits data n .initial = .running u)
        ∨ ∃ n p, (∀ u, p ≠ .running u)
          ∧ ∀ k, n ≤ k → Untyped.proceed limits data k .initial = p))
    ∧ (∀ d r, checkStructure data = some (d :: r) →
      Machine.create data options = .error (.malformed (d :: r)))
    ∧ (checkStructure data = none → Machine.create data options = .error .noText)
  := by
  refine ⟨?passes, ?reports, ?breaks_off⟩
  case passes =>
    intro hdata limits hlimits
    obtain ⟨code, hcode⟩ := Code.exists_of_checkStructure hdata
    have hm := create_eq_ok_iff.mpr ⟨code, limits, hcode, hlimits, rfl⟩
    refine ⟨_, hm, ?_, goes_wrong_iff hm hlimits, Untyped.goes_on_or_ends limits data .initial⟩
    intro n
    rcases agrees_progress hm hlimits n with hagrees | ⟨hwrong, -⟩
    · rw [run_eq rfl]
      generalize progress _ n = p' at hagrees ⊢
      generalize Untyped.proceed limits data n .initial = p at hagrees ⊢
      cases hagrees with
      | running h => exact .inl ⟨_, rfl, h.isTyped, rfl⟩
      | halted h =>
        rw [Sum.getRight?_inr, Option.map_some, ← h.steps]
        exact .inr (.inl ⟨_, _, rfl, h.isTyped, rfl⟩)
      | faulted fault hx h =>
        rw [Sum.getRight?_inr, Option.map_some, ← h.steps]
        exact .inr (.inr (.inl ⟨_, _, _, _, _, rfl, h.isTyped, hx, rfl⟩))
    · exact .inr (.inr (.inr hwrong))
  case reports =>
    intro d r hdata
    rw [Machine.create, Code.ofData, hdata]
    rfl
  case breaks_off =>
    intro hdata
    rw [Machine.create, Code.ofData, hdata]
    rfl

/-- Instructions with fields that do not belong to them, and a jump to the negative zero. -/
def oddFields : List Datum :=
  [.record [(Text.ofString "op", .string "loadc"), (Text.ofString "value", .integer 5),
      (Text.ofString "note", .null)],
    .record [(Text.ofString "target", .number .negativeZero), (Text.ofString "op", .string "jumpz")],
    .record [(Text.ofString "op", .string "halt"), (Text.ofString "value", .number .nan)]]

/-- A program that halts in spite of its odd fields, and that is refused behind a missing
element. -/
theorem checkStructure_gate_oddFields :
  (∃ m m' u, checkStructure oddFields = some [] ∧ Machine.create oddFields {} = .ok m
    ∧ Untyped.proceed ⟨none, Limits.defaultSize, Limits.defaultSize⟩ oddFields 3 .initial
      = .halted u
    ∧ u.IsTyped ∧ m.run 3 = .ok (some (⟨.halted, u.steps⟩, m')))
  ∧ Machine.create (.absent :: oddFields) {}
    = .error (.malformed [Malformation.diagnostic 0 (.unknownOpcode "undefined")])
  ∧ Machine.create (.record [("op", .record [("toString", .null)])] :: oddFields) {}
    = .error .noText
  := by
  refine ⟨?_, ?_, ?_⟩
  · have hhalted : ∃ u, Untyped.proceed ⟨none, Limits.defaultSize, Limits.defaultSize⟩ oddFields 3
        .initial = .halted u :=
      ⟨_, rfl⟩
    obtain ⟨u, hu⟩ := hhalted
    obtain ⟨m, hm, hruns, -⟩ := (checkStructure_gate oddFields {}).1 rfl _ rfl
    rcases hruns 3 with ⟨u', hu', -⟩ | ⟨u', m', hu', htyped, hrun⟩ | ⟨u', m', _, _, _, hu', -⟩ | hu'
    · cases hu.symm.trans hu'
    · exact ⟨m, m', u', rfl, hm, hu', htyped, hrun⟩
    · cases hu.symm.trans hu'
    · cases hu.symm.trans hu'
  · exact (checkStructure_gate (.absent :: oddFields) {}).2.1 _ [] rfl
  · exact (checkStructure_gate (_ :: oddFields) {}).2.2 rfl

/-! ### A stack that is filled -/

/-- The limits where no options set others. -/
def defaults : Limits :=
  { maxSteps := none, memory := Limits.defaultSize, heap := Limits.defaultSize }

/-- A program that puts constants on the stack for ever. -/
def fillsStack : Program := [.loadc 1, .jump (.int 0)]

/-- The state of the untyped machine after some constants have been put on the stack. -/
def filled (n : Nat) : Untyped.State :=
  { Untyped.State.initial with stack := List.replicate n (.integer 1), steps := 2 * n }

theorem filled_zero :
  filled 0 = .initial
  := rfl

/-- One more constant is put on the stack in two cycles, if there is room. -/
theorem proceed_filled {n : Nat} (hroom : n < Limits.greatestSize) :
  Untyped.proceed defaults fillsStack.toData 2 (filled n) = .running (filled (n + 1))
  := by
  have hpush : (filled n).cycle defaults fillsStack.toData
      = Untyped.State.push (.integer 1)
        { filled n with pc := .number (.ofNat 1), steps := 2 * n + 1 } := rfl
  have hjump (u : Untyped.State) (hu : u.pc = .number (.ofNat 1)) :
      u.cycle defaults fillsStack.toData
        = .running { u with pc := .number (.ofNat 0), steps := u.steps + 1 } := by
    rw [Untyped.State.cycle, Untyped.State.withPosition, hu]
    rfl
  have hlength : (filled n).stack.length < Limits.greatestSize := by
    rwa [filled, List.length_replicate]
  rw [Untyped.proceed, hpush, Untyped.State.push, if_pos hlength]
  simp only
  rw [Untyped.proceed, hjump _ rfl]
  rfl

theorem isFull_filled {n : Nat} (hfull : Limits.greatestSize ≤ n) :
  (filled n).IsFull defaults fillsStack.toData
  := by
  refine ⟨rfl, ?_, .ofNat 0, 0, _, rfl, rfl, rfl, rfl⟩
  rwa [filled, List.length_replicate]

/-- The run goes wrong as soon as there is no room. -/
theorem proceed_filled_wrong (j : Nat) {n : Nat} (h : n + j = Limits.greatestSize) :
  Untyped.proceed defaults fillsStack.toData (2 * j + 1) (filled n) = .wrong .stack
  := by
  induction j generalizing n with
  | zero =>
    have hfull : Limits.greatestSize ≤ n := by omega
    rw [Untyped.proceed, (isFull_filled hfull).cycle]
  | succ j ih =>
    have hroom : n < Limits.greatestSize := by omega
    have hsteps : 2 * (j + 1) + 1 = 2 + (2 * j + 1) := by omega
    rw [hsteps, Untyped.proceed_of_running (proceed_filled hroom)]
    apply ih
    omega

/-- The program that fills the stack passes the structural check, and its run goes wrong.  Nor is a
machine made of it with a limit on the memory that is an integer, but not a safe one. -/
theorem checkStructure_gate_fillsStack :
  checkStructure fillsStack.toData = some []
  ∧ Limits.ofOptions ({} : MachineOptions).toLimitOptions = .ok defaults
  ∧ (∃ n, Untyped.proceed defaults fillsStack.toData n .initial = .wrong .stack)
  ∧ Machine.create fillsStack.toData
      { maxSteps := .number (.int 2), memoryLimit := .number (.int 9007199254740992) }
    = .error (.limit (.memoryLimit "9007199254740992"))
  := by
  refine ⟨rfl, rfl, ⟨2 * Limits.greatestSize + 1, ?_⟩, ?_⟩
  · rw [← filled_zero]
    apply proceed_filled_wrong Limits.greatestSize (Nat.zero_add _)
  · rfl

end Machine

end StackMachine
