import StackMachine.Proofs.Machine.Discipline
import StackMachine.Proofs.Validation

/-!
# Leaving a program

A run leaves a program when it comes to a place where there is no instruction.  The jumps of a
validated program lead to its instructions, so that a run can leave it only behind its last
instruction, and not even there if that is `halt` or `jump`.
-/

namespace StackMachine

/-! ### Code that is not left by jumps -/

/-- Code whose jumps lead to its instructions. -/
def JumpsInside (code : Array (Instruction Nat)) : Prop :=
  ∀ i ∈ code, ∀ t, i.target? = some t → t < code.size

/-- An instruction behind which the run does not go on to the next one. -/
def Instruction.IsClosing {τ : Type} (i : Instruction τ) : Prop := i = halt ∨ ∃ t, i = jump t

namespace State

variable {limits : Limits} {code : Array (Instruction Nat)} {s t : State}

/-- An instruction jumps, or it leads on to the next position and is not a closing one. -/
theorem Effect.jumps_or_passes {i : Instruction Nat} (h : Effect limits i s t) :
  i.target? = some t.pc ∨ t.pc = s.pc ∧ ¬ i.IsClosing
  := by
  cases h with
  | jump | jumpzTaken => exact .inl rfl
  | loadc | load | store | pop | new | jumpzPassed | binary | unary =>
    right
    use rfl
    rintro (h | ⟨t, h⟩)
    · cases h
    · cases h

/-- A cycle leads to a place inside the code or, from the last instruction, to its end. -/
theorem pc_of_cycle (hcode : JumpsInside code) (h : s.cycle limits code = .running t) :
  t.pc < code.size
    ∨ t.pc = code.size ∧ ∃ i, code[code.size - 1]? = some i ∧ ¬ i.IsClosing
  := by
  obtain ⟨i, hfetch, heffect⟩ := effect_of_cycle h
  have hi := (fetch_eq_ok.mp hfetch).1
  obtain ⟨hlt, -⟩ := Array.getElem?_eq_some_iff.mp hi
  rcases heffect.jumps_or_passes with htarget | ⟨hpc, hpasses⟩
  · left
    apply hcode i (Array.mem_of_getElem? hi) t.pc htarget
  · have hpc : t.pc = s.pc + 1 := hpc
    -- the code is left only from its last position
    by_cases hlast : s.pc + 1 < code.size
    · left
      rw [hpc]
      apply hlast
    · right
      have hend : s.pc = code.size - 1 := by omega
      constructor
      · omega
      · use i
        rw [← hend]
        exact ⟨hi, hpasses⟩

/-- A run that starts at an instruction is inside the code until it comes to its end. -/
theorem pc_of_proceed (hcode : JumpsInside code) (hs : s.pc < code.size) {n : Nat}
    (h : s.proceed limits code n = .inl t) :
  t.pc < code.size
    ∨ t.pc = code.size ∧ ∃ i, code[code.size - 1]? = some i ∧ ¬ i.IsClosing
  := proceed_induction (fun _ _ _ => pc_of_cycle hcode) h (.inl hs)

/-- A run that leaves the code does so at its end, behind an instruction that is not a closing
one. -/
theorem EndsIn.fetchRange (hcode : JumpsInside code) (hs : s.pc < code.size) {f : Finished}
    (hf : s.EndsIn limits code f) {fault : Fault} {index : Nat}
    (hfault : f.outcome = .faulted fault index) (hrange : fault.code = .fetchRange) :
  index = code.size ∧ ∃ i, code[code.size - 1]? = some i ∧ ¬ i.IsClosing
  := by
  obtain ⟨n, t, ht, hc, rfl⟩ := hf.last_faulted hfault
  have hpc := pc_of_proceed hcode hs ht
  rcases cause_of_cycle hc with ⟨hfetch, -⟩ | ⟨i, -, hcause⟩
  · rcases fetch_eq_error hfetch with ⟨limit, -, -, rfl⟩ | ⟨hnone, -⟩
    · cases hrange
    · have hle := Array.getElem?_eq_none_iff.mp hnone
      apply hpc.resolve_left (Nat.not_lt.mpr hle)
  · cases hcause.code_ne.1 hrange

end State

/-! ### Validated programs -/

/-- What the validation of a program without faults has looked at. -/
theorem of_validate {data : List Datum} (h : validate data = .ok []) :
  checkStructure data = some [] ∧ data ≠ []
    ∧ ∀ d ∈ data, ∀ x, jumpTarget? d = some x → (Number.ofNat data.length).le x = false
  := by
  obtain ⟨hstructure, hne, hexit⟩ := validate_eq_ok_nil_iff.mp h
  use hstructure, hne
  intro d hd x hx
  have hnone := hexit d hd
  rw [Datum.exit?, hx, Option.filter_some] at hnone
  split at hnone
  · cases hnone
  · next hle => exact Bool.not_eq_true _ ▸ hle

/-- The jumps of a validated program lead to its instructions. -/
theorem Code.jumpsInside_of_validate {data : List Datum} {code : Code}
    (hdata : validate data = .ok []) (hcode : Code.ofData data = .ok code) :
  JumpsInside code.toArray
  := by
  intro i hi t ht
  obtain ⟨d, hd, hwritten⟩ := Code.exists_isWritten hcode (List.mem_toArray.mp hi)
  obtain ⟨x, hx, hindex⟩ := hwritten.jumpTarget? ht
  have hle := (of_validate hdata).2.2 d hd x hx
  rw [List.size_toArray, ← Code.length_of_ofData hcode]
  by_contra hlt
  rw [(Number.ofNat_le_of_toIndex? hindex).mpr (Nat.not_lt.mp hlt)] at hle
  cases hle

/-- A value that names `halt` or `jump` is written for a closing instruction. -/
theorem Instruction.IsWritten.isClosing {d : Datum} {i : Instruction Nat} (h : IsWritten d i)
    (hd : d.field "op" = .string "halt" ∨ d.field "op" = .string "jump") :
  i.IsClosing
  := by
  rcases hd with hd | hd
  · have hop := h.opcode_eq (o := .halt) hd
    left
    cases i <;> cases hop
    rfl
  · have hop := h.opcode_eq (o := .jump) hd
    right
    cases i <;> cases hop
    exact ⟨_, rfl⟩

/-- The last element of a program is written for the last instruction of its code. -/
theorem Code.isWritten_getLast? {data : List Datum} {code : Code}
    (h : Code.ofData data = .ok code) {d : Datum} {i : Instruction Nat}
    (hd : data.getLast? = some d) (hi : code.getLast? = some i) :
  Instruction.IsWritten d i
  := by
  have hread := Code.ofData_eq_ok_iff.mp h
  rw [List.getLast?_eq_getElem?] at hd hi
  rw [← Code.length_of_ofData h] at hi
  obtain ⟨hn, rfl⟩ := List.getElem?_eq_some_iff.mp hd
  obtain ⟨hn', rfl⟩ := List.getElem?_eq_some_iff.mp hi
  apply Instruction.isWritten_of_ofDatum (hread.get hn hn')

namespace Machine

variable {data : List Datum} {options : MachineOptions} {limits : Limits}

/-- A run never jumps out of a validated program.  If it ends because there is no instruction,
it has come to the end of the program; and this does not happen if the last instruction is
`halt` or `jump`. -/
theorem never_jumps_out (hdata : validate data = .ok [])
    (hoptions : Limits.ofOptions options.toLimitOptions = .ok limits) :
  ∃ m, Machine.create data options = .ok m
    ∧ (∀ n r m', m.run n = .ok (some (r, m')) → ∀ fault index, r.outcome = .faulted fault index →
        fault.code = .fetchRange → index = data.length)
    ∧ ((∃ d, data.getLast? = some d
          ∧ (d.field "op" = .string "halt" ∨ d.field "op" = .string "jump")) →
        ∀ n r m', m.run n = .ok (some (r, m')) → ∀ fault index, r.outcome = .faulted fault index →
          fault.code ≠ .fetchRange)
  := by
  obtain ⟨hstructure, hne, -⟩ := of_validate hdata
  obtain ⟨code, hcode⟩ := Code.exists_of_checkStructure hstructure
  have hlength := Code.length_of_ofData hcode
  have hpos : State.initial.pc < code.toArray.size := by
    rw [List.size_toArray, ← hlength]
    apply List.length_pos_iff.mpr hne
  have hleaves {n r m'}
      (hrun : (ofCode code limits options.runId options.traced).run n = .ok (some (r, m')))
      {fault index} (hfault : r.outcome = .faulted fault index)
      (hrange : fault.code = .fetchRange) :
      index = code.toArray.size
        ∧ ∃ i, code.toArray[code.toArray.size - 1]? = some i ∧ ¬ i.IsClosing := by
    obtain ⟨f, hf, rfl, -⟩ := run_eq_some rfl hrun
    apply State.EndsIn.fetchRange (Code.jumpsInside_of_validate hdata hcode) hpos ⟨n, hf⟩ hfault
      hrange
  use ofCode code limits options.runId options.traced
  refine ⟨create_eq_ok_iff.mpr ⟨code, limits, hcode, hoptions, rfl⟩, ?_, ?_⟩
  · intro n r m' hrun fault index hfault hrange
    rw [(hleaves hrun hfault hrange).1, List.size_toArray, hlength]
  · rintro ⟨d, hd, hop⟩ n r m' hrun fault index hfault hrange
    obtain ⟨-, i, hi, hclosing⟩ := hleaves hrun hfault hrange
    apply hclosing
    apply (Code.isWritten_getLast? hcode hd _).isClosing hop
    rw [List.getLast?_eq_getElem?, ← hi, List.getElem?_toArray, List.size_toArray]

/-- A program whose jump leads to its last instruction, behind which the run leaves it. -/
theorem never_jumps_out_falls_off :
  ∃ m m', validate (Code.toProgram [.loadc 0, .jumpz 3, .halt, .loadc 7]).toData = .ok []
    ∧ Machine.create (Code.toProgram [.loadc 0, .jumpz 3, .halt, .loadc 7]).toData {} = .ok m
    ∧ m.run 4 = .ok (some (⟨.faulted (.fetchRange 4 4) 4, 3⟩, m'))
    ∧ 4 = (Code.toProgram [.loadc 0, .jumpz 3, .halt, .loadc 7]).toData.length
  := by
  have hcode : ∀ i ∈ ([.loadc 0, .jumpz 3, .halt, .loadc 7] : Code), i.IsWellFormed := by
    simp [Instruction.IsWellFormed, Word.IsWord, Word.least, Word.greatest]
  have hdata : validate (Code.toProgram [.loadc 0, .jumpz 3, .halt, .loadc 7]).toData = .ok [] :=
    rfl
  have hoptions : Limits.ofOptions ({} : MachineOptions).toLimitOptions = .ok _ := rfl
  obtain ⟨m, hm, hends, -⟩ := never_jumps_out hdata hoptions
  have hm' := create_toProgram hcode hoptions
  rw [hm] at hm'
  cases hm'
  exact ⟨_, _, hdata, hm, rfl, hends 4 _ _ rfl _ _ rfl rfl⟩

end Machine

end StackMachine
