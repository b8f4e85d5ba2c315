import StackMachine.Proofs.Machine.Bounds
import StackMachine.Proofs.Machine.Cause
import StackMachine.Proofs.Machine.Reach

/-!
# Stack discipline

Each position of code has a height, which is found by going through the code once from its
beginning.  In disciplined code the instructions fit the heights, so that a run comes to every
position with as many words on the stack as its height says, whatever the limits are, and only
a few kinds of faults remain.
-/

namespace StackMachine

/-! ### Heights -/

/-- How many words are on the stack after an instruction, from how many are on it before.
Nothing goes on behind `halt`, and the stack counts as empty there. -/
def Instruction.heightAfter {τ : Type} (height : Nat) : Instruction τ → Nat
  | loadc _ => height + 1
  | load => height
  | store => height - 1
  | pop => height - 1
  | new => height
  | jump _ => height
  | jumpz _ => height - 1
  | halt => 0
  | binary _ => height - 1
  | unary _ => height

/-- The instructions that take an address of the memory from the stack. -/
def Instruction.UsesMemory {τ : Type} (i : Instruction τ) : Prop := i = load ∨ i = store

section

variable (code : Array (Instruction Nat))

/-- How many words are on the stack at a position of code: what the instructions before it
leave there, one after another. -/
def heightAt : Nat → Nat
  | 0 => 0
  | n + 1 =>
    match code[n]? with
    | some i => i.heightAfter (heightAt n)
    | none => heightAt n

/-- The instruction at a position fits the heights: it finds the words that it needs, it jumps
only with an empty stack to where the stack is empty, and it uses the memory only at an address
that the instruction before it pushes, below a number of slots.  It does not use the heap, and
the height is bounded. -/
structure FitsAt (slots bound n : Nat) (i : Instruction Nat) : Prop where
  needs : i.needs ≤ heightAt code n
  bound : heightAt code n ≤ bound
  target : ∀ t, i.target? = some t →
    t < code.size ∧ heightAt code t = 0 ∧ i.heightAfter (heightAt code n) = 0
  address : i.UsesMemory →
    ∃ m slot : Nat, n = m + 1 ∧ slot < slots ∧ code[m]? = some (.loadc slot)
  ne_new : i ≠ .new

/-- Code that fits its heights throughout and goes on behind everything but `halt`. -/
structure Disciplined (slots bound : Nat) : Prop where
  nonempty : 0 < code.size
  instruction : ∀ n i, code[n]? = some i → FitsAt code slots bound n i
  next : ∀ n i, code[n]? = some i → i ≠ .halt → n + 1 < code.size

end

variable {code : Array (Instruction Nat)} {slots bound : Nat}

theorem heightAt_succ {n : Nat} {i : Instruction Nat} (hi : code[n]? = some i) :
  heightAt code (n + 1) = i.heightAfter (heightAt code n)
  := by
  rw [heightAt, hi]

/-- Where a jump leads no address is taken. -/
theorem not_usesMemory_of_height (hcode : Disciplined code slots bound) {n : Nat}
    {i : Instruction Nat} (hi : code[n]? = some i) (hn : heightAt code n = 0) :
  ¬ i.UsesMemory
  := by
  have hneeds := (hcode.instruction n i hi).needs
  rw [hn] at hneeds
  rintro (rfl | rfl)
  · cases hneeds
  · cases hneeds

/-- The faults that remain in disciplined code: no word and no instruction is missing, the
heap is not used, and an address is outside the memory only if there is no room for the
slots. -/
structure Fault.Remains (limits : Limits) (slots : Nat) (fault : Fault) : Prop where
  stackUnderflow : fault.code ≠ .stackUnderflow
  fetchRange : fault.code ≠ .fetchRange
  alloc : fault.code ≠ .alloc
  address : fault.code = .address → limits.memory < slots

namespace State

/-! ### Effects -/

section

variable {limits : Limits} {i : Instruction Nat} {s t : State}

theorem Effect.length_stack (h : Effect limits i s t) :
  t.stack.length = i.heightAfter s.stack.length
  := by
  cases h with
  | loadc | jump => rfl
  | load hs | store hs | pop hs | new hs | jumpzTaken _ hs | jumpzPassed _ hs | binary hs
  | unary hs =>
    rw [hs]
    rfl

/-- An instruction leads on to the next position or jumps to its target. -/
theorem Effect.pc (h : Effect limits i s t) :
  t.pc = s.pc ∨ i.target? = some t.pc
  := by
  cases h with
  | jump | jumpzTaken => exact .inr rfl
  | loadc | load | store | pop | new | jumpzPassed | binary | unary => exact .inl rfl

theorem Effect.heap (h : Effect limits i s t) (hi : i ≠ .new) :
  t.heap = s.heap
  := by
  cases h with
  | new => cases hi rfl
  | loadc | load | store | pop | jump | jumpzTaken | jumpzPassed | binary | unary => rfl

/-- The memory keeps its size, or grows up to the address on the stack. -/
theorem Effect.size_memory (h : Effect limits i s t) :
  t.memory.size = s.memory.size
    ∨ i.UsesMemory ∧ ∃ (a : Nat) (r : List Int), s.stack = (a : Int) :: r
      ∧ t.memory.size = max s.memory.size (a + 1)
  := by
  cases h with
  | @load s a r hs =>
    right
    refine ⟨.inl rfl, a, r, hs, ?_⟩
    apply size_growTo
  | @store s a w r hs =>
    right
    refine ⟨.inr rfl, a, w :: r, hs, ?_⟩
    rw [Array.size_setIfInBounds, size_growTo]
  | loadc | pop | new | jump | jumpzTaken | jumpzPassed | binary | unary => exact .inl rfl

end

/-! ### The invariant -/

/-- A state of a run of disciplined code: the stack is as high as its position says, an
address that is to be taken is on it, the memory is no larger than the slots, and the heap is
empty. -/
structure Follows (code : Array (Instruction Nat)) (slots : Nat) (s : State) : Prop where
  pc : s.pc < code.size
  stack : s.stack.length = heightAt code s.pc
  address : ∀ i, code[s.pc]? = some i → i.UsesMemory →
    ∃ (slot : Nat) (r : List Int), slot < slots ∧ s.stack = (slot : Int) :: r
  memory : s.memory.size ≤ slots
  heap : s.heap = #[]

variable {limits : Limits} {s t : State}

theorem follows_initial (hcode : Disciplined code slots bound) :
  State.initial.Follows code slots
  := by
  refine ⟨hcode.nonempty, rfl, ?_, Nat.zero_le _, rfl⟩
  intro i hi hmemory
  cases not_usesMemory_of_height hcode hi rfl hmemory

/-- The memory stays no larger than the slots. -/
theorem Follows.size_memory (hs : s.Follows code slots) {i : Instruction Nat}
    (hi : code[s.pc]? = some i) (h : Effect limits i s.advance t) :
  t.memory.size ≤ slots
  := by
  have hle : s.memory.size ≤ slots := hs.memory
  rcases h.size_memory with hsize | ⟨hmemory, a, r, ha, hsize⟩
  · rw [hsize]
    apply hle
  · obtain ⟨slot, r', hslot, hstack⟩ := hs.address i hi hmemory
    have hsame : (a : Int) = slot := (List.cons.inj (ha.symm.trans hstack)).1
    have hmax : t.memory.size = max s.memory.size (a + 1) := hsize
    omega

/-- A cycle after which the machine goes on keeps to the heights. -/
theorem Follows.cycle (hcode : Disciplined code slots bound) (hs : s.Follows code slots)
    (h : s.cycle limits code = .running t) :
  t.Follows code slots
  := by
  obtain ⟨i, hfetch, heffect⟩ := effect_of_cycle h
  have hi := (fetch_eq_ok.mp hfetch).1
  have hfits := hcode.instruction s.pc i hi
  have hstack : t.stack.length = i.heightAfter (heightAt code s.pc) := by
    rw [heffect.length_stack, ← hs.stack]
    rfl
  have hmemory := hs.size_memory hi heffect
  have hheap : t.heap = #[] := (heffect.heap hfits.ne_new).trans hs.heap
  rcases heffect.pc with hpc | htarget
  · have hpc : t.pc = s.pc + 1 := hpc
    constructor
    · rw [hpc]
      apply hcode.next s.pc i hi
      rintro rfl
      cases heffect
    · rw [hstack, hpc, heightAt_succ hi]
    · -- the address that is to be taken has just been pushed
      intro j hj huses
      rw [hpc] at hj
      obtain ⟨m, slot, hm, hslot, hloadc⟩ := (hcode.instruction _ j hj).address huses
      cases hm
      rw [hi] at hloadc
      cases hloadc
      cases heffect
      exact ⟨slot, s.stack, hslot, rfl⟩
    · apply hmemory
    · apply hheap
  · obtain ⟨hsize, hheight, hafter⟩ := hfits.target t.pc htarget
    constructor
    · apply hsize
    · rw [hstack, hafter, hheight]
    · intro j hj huses
      cases not_usesMemory_of_height hcode hj hheight huses
    · apply hmemory
    · apply hheap

/-- A run of disciplined code keeps to the heights. -/
theorem Follows.proceed (hcode : Disciplined code slots bound) (hs : s.Follows code slots)
    {n : Nat} (h : s.proceed limits code n = .inl t) :
  t.Follows code slots
  := proceed_induction (fun _ _ hu hc => hu.cycle hcode hc) h hs

/-! ### Bounds and faults -/

/-- The stack is bounded, the memory is no larger than the slots, and the heap is empty. -/
structure IsConfined (slots bound : Nat) (s : State) : Prop where
  stack : s.stack.length ≤ bound
  memory : s.memory.size ≤ slots
  heap : s.heap = #[]

theorem Follows.isConfined (hcode : Disciplined code slots bound) (hs : s.Follows code slots) :
  s.IsConfined slots bound
  := by
  refine ⟨?_, hs.memory, hs.heap⟩
  rw [hs.stack]
  apply (hcode.instruction s.pc _ (Array.getElem?_eq_getElem hs.pc)).bound

/-- The state in which a cycle ends, whether or not the machine goes on, is confined. -/
theorem Follows.isConfined_cycle (hcode : Disciplined code slots bound)
    (hs : s.Follows code slots) (limits : Limits) :
  (s.cycle limits code).state.IsConfined slots bound
  := by
  have hconfined := hs.isConfined hcode
  have hturn := turn_cycle limits code s
  cases hc : s.cycle limits code with
  | running t => apply (hs.cycle hcode hc).isConfined hcode
  | halted t =>
    rw [hc] at hturn
    cases hturn
    exact ⟨hconfined.stack, hconfined.memory, hconfined.heap⟩
  | faulted fault t =>
    rw [hc] at hturn
    cases hturn with
    | refused => apply hconfined
    | faulted _ _ k =>
      refine ⟨?_, hconfined.memory, hconfined.heap⟩
      apply Nat.le_trans _ hconfined.stack
      apply Nat.le_trans (Nat.le_of_eq List.length_drop) (Nat.sub_le _ _)

/-- A cycle of disciplined code faults only in these ways. -/
theorem Follows.remains (hcode : Disciplined code slots bound) (hs : s.Follows code slots)
    {fault : Fault} (h : s.cycle limits code = .faulted fault t) :
  fault.Remains limits slots
  := by
  rcases cause_of_cycle h with ⟨hfetch, -⟩ | ⟨i, hfetch, hcause⟩
  · rcases fetch_eq_error hfetch with ⟨limit, -, -, rfl⟩ | ⟨hnone, -⟩
    · exact ⟨nofun, nofun, nofun, nofun⟩
    · have := Array.getElem?_eq_none_iff.mp hnone
      cases Nat.not_lt.mpr this hs.pc
  · have hi := (fetch_eq_ok.mp hfetch).1
    have hfits := hcode.instruction s.pc i hi
    cases hcause with
    | underflow hneeds =>
      have hstack : s.advance.stack.length = heightAt code s.pc := hs.stack
      rw [hstack] at hneeds
      cases Nat.not_lt.mpr hfits.needs hneeds
    | @address _ w r huses hstack hw =>
      refine ⟨nofun, nofun, nofun, ?_⟩
      intro _
      obtain ⟨slot, r', hslot, hstack'⟩ := hs.address i hi huses
      have hsame : w = slot := (List.cons.inj (hstack.symm.trans hstack')).1
      omega
    | allocation => cases hfits.ne_new rfl
    | arithmetic harithmetic =>
      rcases harithmetic with hfault | hfault
      · constructor <;> rw [hfault] <;> exact nofun
      · constructor <;> rw [hfault] <;> exact nofun

/-- A run of disciplined code ends in a confined state and, if it ends with a fault, with one
that remains. -/
theorem Follows.endsIn (hcode : Disciplined code slots bound) (hs : s.Follows code slots)
    {f : Finished} (hf : s.EndsIn limits code f) :
  f.state.IsConfined slots bound
    ∧ ∀ fault index, f.outcome = .faulted fault index → fault.Remains limits slots
  := by
  obtain ⟨n, t, ht, hlast⟩ := hf.last
  have hfollows := hs.proceed hcode ht
  have hconfined := hfollows.isConfined_cycle hcode limits
  cases hc : t.cycle limits code with
  | running u =>
    rw [hc] at hlast
    cases hlast
  | halted u =>
    rw [hc] at hlast hconfined
    cases hlast
    exact ⟨hconfined, nofun⟩
  | faulted fault u =>
    rw [hc] at hlast hconfined
    cases hlast
    use hconfined
    rintro fault' index ⟨⟩
    apply hfollows.remains hcode hc

end State

/-! ### Machines -/

namespace Machine

variable {m : Machine}

/-- A machine with disciplined code is at every position of its run at the height of the
position. -/
theorem height_of_progress (hcode : Disciplined m.code.toArray slots bound) {n : Nat}
    {s : State} (h : m.progress n = .inl s) :
  s.stack.length = heightAt m.code.toArray s.pc
  := ((State.follows_initial hcode).proceed hcode h).stack

/-- The states that a machine with disciplined code passes are confined. -/
theorem isConfined_of_passes (hm : m.started = false)
    (hcode : Disciplined m.code.toArray slots bound) {s : State} (hs : m.Passes s) :
  s.IsConfined slots bound
  := by
  have hinitial := State.follows_initial hcode
  cases hs with
  | between h => apply (hinitial.proceed hcode h).isConfined hcode
  | fetched h =>
    have hconfined := (hinitial.proceed hcode h).isConfined hcode
    exact ⟨hconfined.stack, hconfined.memory, hconfined.heap⟩
  | ended h =>
    obtain ⟨f, hf, -, rfl⟩ := run_eq_some hm h
    apply (hinitial.endsIn hcode ⟨_, hf⟩).1

/-- A machine with disciplined code ends only with faults that remain. -/
theorem remains_of_run (hm : m.started = false)
    (hcode : Disciplined m.code.toArray slots bound) {n : Nat} {r : RunResult} {m' : Machine}
    (h : m.run n = .ok (some (r, m'))) {fault : Fault} {index : Nat}
    (hfault : r.outcome = .faulted fault index) :
  fault.Remains m.limits slots
  := by
  obtain ⟨f, hf, rfl, -⟩ := run_eq_some hm h
  apply ((State.follows_initial hcode).endsIn hcode ⟨n, hf⟩).2 fault index hfault

end Machine

end StackMachine
