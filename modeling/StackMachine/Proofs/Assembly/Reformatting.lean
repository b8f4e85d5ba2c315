import StackMachine.Proofs.Assembly.Encoding
import StackMachine.Proofs.Assembly.RoundTrip
import StackMachine.Proofs.Machine.Positions

/-!
# Reformatting

A text that is assembled can be listed and assembled again.  Jumps past the end then lead to
the end, and nothing else changes: the code runs in the same way as before, and the two runs
differ only in how far past the end they leave it.
-/

namespace StackMachine

/-! ### Clipped code -/

/-- Code whose jumps past the end lead to the end. -/
def Code.clip (code : Code) : Code := code.map fun i => i.map fun t => min t code.length

/-- Clipped code is the code with its positions past the end renumbered. -/
theorem Code.renumbers_clip (code : Code) :
  Renumbers (fun t => min t code.length) code.toArray code.clip.toArray
  := by
  constructor
  · rw [List.size_toArray, List.size_toArray, clip, List.length_map]
  · intro n
    rw [List.getElem?_toArray, List.getElem?_toArray, clip, List.getElem?_map]
    by_cases hn : n < code.length
    · rw [Nat.min_eq_left (Nat.le_of_lt hn)]
    · rw [List.getElem?_eq_none (Nat.not_lt.mp hn),
        List.getElem?_eq_none (Nat.le_min.mpr ⟨Nat.not_lt.mp hn, Nat.le_refl _⟩)]
  · intro n hn
    rw [List.size_toArray] at hn
    omega
  · apply Nat.zero_min

theorem Code.isWellFormed_clip {code : Code} (h : ∀ i ∈ code, i.IsWellFormed) :
  ∀ i ∈ code.clip, i.IsWellFormed
  := by
  intro i hi
  obtain ⟨j, hj, rfl⟩ := List.mem_map.mp hi
  apply Instruction.isWellFormed_map.mpr (h j hj)

/-! ### Runs that agree -/

/-- Outcomes that agree but for positions past the end: both are halts, or both are faults of
one code at the same index. -/
inductive Outcome.Agrees (n : Nat) : Outcome → Outcome → Prop where
  | halted : Agrees n .halted .halted
  | faulted {fault fault' : Fault} {index index' : Nat} (hcode : fault.code = fault'.code)
      (hindex : min index n = min index' n) :
      Agrees n (.faulted fault index) (.faulted fault' index')

/-- States that agree but for positions past the end. -/
structure State.Agrees (n : Nat) (s t : State) : Prop where
  pc : min s.pc n = min t.pc n
  stack : s.stack = t.stack
  memory : s.memory = t.memory
  heap : s.heap = t.heap
  steps : s.steps = t.steps

theorem Outcome.agrees_renumber (n : Nat) (o : Outcome) :
  o.Agrees n (o.renumber fun t => min t n)
  := by
  cases o with
  | halted => apply Outcome.Agrees.halted
  | faulted fault index =>
    apply Outcome.Agrees.faulted
    · rw [Fault.code_renumber]
    · rw [Nat.min_assoc, Nat.min_self]

theorem State.agrees_renumber (n : Nat) (s : State) :
  s.Agrees n (s.renumber fun t => min t n)
  := by
  constructor
  · change _ = min (min s.pc n) n
    rw [Nat.min_assoc, Nat.min_self]
  · rfl
  · rfl
  · rfl
  · rfl

/-- Two machines run in the same way but for positions past the end: neither has ended after
so many cycles, or both have, with outcomes and in states that agree. -/
def Machine.RunAgrees (n : Nat) (m m' : Machine) : Prop :=
  ∀ fuel, m.run fuel = .ok none ∧ m'.run fuel = .ok none
    ∨ ∃ r r' p p', m.run fuel = .ok (some (r, p)) ∧ m'.run fuel = .ok (some (r', p'))
      ∧ r.outcome.Agrees n r'.outcome ∧ r.steps = r'.steps ∧ p.state.Agrees n p'.state

/-- Clipped code runs in the same way as the code. -/
theorem Machine.runAgrees_clip (code : Code) (limits : Limits) (runId : Text) (traced : Bool) :
  RunAgrees code.length (ofCode code limits runId traced) (ofCode code.clip limits runId traced)
  := by
  intro fuel
  have hprogress : (ofCode code.clip limits runId traced).progress fuel
      = Progress.renumber (fun t => min t code.length)
        ((ofCode code limits runId traced).progress fuel) := by
    apply progress_renumber
    · apply code.renumbers_clip
    · rfl
  rw [run_eq rfl, run_eq rfl, hprogress]
  cases (ofCode code limits runId traced).progress fuel with
  | inl s =>
    left
    exact ⟨rfl, rfl⟩
  | inr f =>
    right
    exact ⟨_, _, _, _, rfl, rfl, Outcome.agrees_renumber _ _, rfl, State.agrees_renumber _ _⟩

namespace Assembly

/-- Reformatting does not change what a text does.  The listing of a text that is assembled
assembles too, to the code whose jumps past the end lead to the end; and with any limits the
two run in the same way but for positions past the end.  Arrays have fewer than `2 ^ 32`
elements, so that the length of the code is always an exact number. -/
theorem reformatting {source : Text} {code : Code} (hcode : assemble source = .ok code)
    (hlength : code.length ≤ Number.maxSafe) :
  ∃ code', assemble (Program.listing code.toProgram) = .ok code'
    ∧ code' = code.map (fun i => i.map fun t => min t code.length)
    ∧ ∀ options limits, Limits.ofOptions options.toLimitOptions = .ok limits →
      ∃ m m', Machine.create code.toProgram.toData options = .ok m
        ∧ Machine.create code'.toProgram.toData options = .ok m'
        ∧ m.RunAgrees code.length m'
  := by
  have hgood := isWellFormed_of_assemble hcode hlength
  have hwell : ∀ i ∈ code, i.IsWellFormed := fun i hi => (hgood i hi).1
  have hlisting : assemble (Program.listing code.toProgram) = .ok code.clip := by
    apply assemble_listing_toProgram hwell
    intro t ht
    obtain ⟨i, hi, htarget⟩ := Code.mem_targets.mp ht
    apply (hgood i hi).2 t htarget
  refine ⟨code.clip, hlisting, rfl, ?_⟩
  intro options limits hlimits
  refine ⟨_, _, Machine.create_toProgram hwell hlimits,
    Machine.create_toProgram (Code.isWellFormed_clip hwell) hlimits, ?_⟩
  apply Machine.runAgrees_clip

/-- A jump past the end agrees with the jump to the end that is made of it, also where the
limit of steps is reached before an instruction is missed. -/
theorem reformatting_cut_off :
  ∃ m m', assemble "loadc 0\njumpz 7" = .ok [.loadc 0, .jumpz 7]
    ∧ assemble (Program.listing (Code.toProgram [.loadc 0, .jumpz 7])) = .ok [.loadc 0, .jumpz 2]
    ∧ Machine.create (Code.toProgram [.loadc 0, .jumpz 7]).toData
      { maxSteps := .number (.int 2) } = .ok m
    ∧ Machine.create (Code.toProgram [.loadc 0, .jumpz 2]).toData
      { maxSteps := .number (.int 2) } = .ok m'
    ∧ m.RunAgrees 2 m'
    ∧ ∃ p, m.run 3 = .ok (some (⟨.faulted (.stepLimit 2) 7, 2⟩, p)) ∧ p.state.pc = 7
  := by
  have hcode : assemble "loadc 0\njumpz 7" = .ok [.loadc 0, .jumpz 7] := by
    decide +kernel
  obtain ⟨code', hlisting, rfl, hruns⟩ := reformatting hcode (by decide)
  obtain ⟨m, m', hm, hm', hagrees⟩ := hruns { maxSteps := .number (.int 2) } _ rfl
  refine ⟨m, m', hcode, hlisting, hm, hm', hagrees, ?_⟩
  have hwell : ∀ i ∈ ([.loadc 0, .jumpz 7] : Code), i.IsWellFormed := by
    simp [Instruction.IsWellFormed, Word.IsWord, Word.least, Word.greatest]
  have hcreate : Machine.create (Code.toProgram [.loadc 0, .jumpz 7]).toData
      { maxSteps := .number (.int 2) } = .ok _ := Machine.create_toProgram hwell rfl
  rw [hcreate] at hm
  cases hm
  exact ⟨_, rfl, rfl⟩

end Assembly

end StackMachine
