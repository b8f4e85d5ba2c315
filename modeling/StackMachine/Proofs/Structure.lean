import Mathlib.Data.List.Forall2
import StackMachine.Machine
import StackMachine.Proofs.Number.Integers

/-!
# Structure of programs

An untyped program without structural faults is code: each of its elements is the
instruction at the same place of the code.  Code whose constants are words is such a
program.  A machine is made of exactly these programs, with options that set limits.
-/

namespace StackMachine

/-! ### Names of opcodes -/

/-- The name of an opcode is the name of no other. -/
theorem Opcode.ofMnemonic?_mnemonic (o : Opcode) :
  Opcode.ofMnemonic? o.mnemonic = some o
  := by
  cases o with
  | binary op => cases op <;> decide
  | unary op => cases op <;> decide
  | _ => decide

theorem Opcode.mnemonic_of_ofMnemonic? {t : Text} {o : Opcode}
    (h : Opcode.ofMnemonic? t = some o) :
  o.mnemonic = t
  := by
  have h := List.find?_some h
  apply eq_of_beq h

/-- Different opcodes have different names. -/
theorem Opcode.mnemonic_injective :
  Function.Injective Opcode.mnemonic
  := by
  intro o o' h
  have hname := Opcode.ofMnemonic?_mnemonic o
  rw [h, Opcode.ofMnemonic?_mnemonic] at hname
  exact (Option.some.inj hname).symm

/-! ### Single instructions -/

/-- An instruction with a constant that is a word, or without one. -/
def Instruction.IsWellFormed {τ : Type} : Instruction τ → Prop
  | loadc value => Word.IsWord value
  | _ => True

theorem Instruction.isWellFormed_map {τ υ : Type} {f : τ → υ} {i : Instruction τ} :
  (i.map f).IsWellFormed ↔ i.IsWellFormed
  := by
  cases i <;> exact Iff.rfl

/-- The opcode that an untyped value names is the one of that name. -/
theorem opcodeOfDatum_eq_ok {d : Datum} {o : Opcode} (h : opcodeOfDatum d = .ok o) :
  d = .string o.mnemonic
  := by
  rw [opcodeOfDatum.eq_def] at h
  split at h
  · next t =>
    split at h
    · next ho =>
      cases h
      rw [Opcode.mnemonic_of_ofMnemonic? ho]
    · cases h
  · cases h

theorem opcodeOfDatum_mnemonic (o : Opcode) :
  opcodeOfDatum (.string o.mnemonic) = .ok o
  := by
  simp only [opcodeOfDatum, Opcode.ofMnemonic?_mnemonic]

/-- The word that an untyped value is. -/
theorem constantOfDatum_eq_ok {o : Opcode} {d : Datum} {value : Int}
    (h : constantOfDatum o d = .ok value) :
  d = .integer value ∧ Word.IsWord value
  := by
  rw [constantOfDatum.eq_def] at h
  split at h
  · split at h
    · next hw =>
      cases h
      exact ⟨rfl, hw⟩
    · cases h
  · cases h

/-- The position that an untyped value names. -/
theorem targetOfDatum_eq_ok {o : Opcode} {d : Datum} {target : Nat}
    (h : targetOfDatum o d = .ok target) :
  ∃ x, d = .number x ∧ x.toIndex? = some target
  := by
  rw [targetOfDatum.eq_def] at h
  split at h
  · cases h
  · next x =>
    split at h
    · next hx =>
      cases h
      exact ⟨x, rfl, hx⟩
    · cases h
  · cases h

namespace Instruction

/-- What an untyped value has to be for an instruction: it names the opcode, and holds the
immediate if the opcode has one. -/
structure IsWritten (d : Datum) (i : Instruction Nat) : Prop where
  opcode : d.field "op" = .string i.opcode.mnemonic
  constant : ∀ value, i = .loadc value → d.field "value" = .integer value
  target : ∀ target, i.target? = some target →
    ∃ x, d.field "target" = .number x ∧ x.toIndex? = some target
  isWellFormed : i.IsWellFormed

theorem ofDatum_eq (d : Datum) :
  ofDatum d = (opcodeOfDatum (d.field "op")).bind fun
    | .loadc => loadc <$> constantOfDatum .loadc (d.field "value")
    | .jump => jump <$> targetOfDatum .jump (d.field "target")
    | .jumpz => jumpz <$> targetOfDatum .jumpz (d.field "target")
    | .load => .ok load
    | .store => .ok store
    | .pop => .ok pop
    | .new => .ok new
    | .halt => .ok halt
    | .binary op => .ok (binary op)
    | .unary op => .ok (unary op)
  := by
  rw [ofDatum]
  cases opcodeOfDatum (d.field "op") with
  | error m => rfl
  | ok o => cases o <;> rfl

theorem map_eq_ok {ε α β : Type} {f : α → β} {x : Except ε α} {b : β}
    (h : f <$> x = .ok b) :
  ∃ a, x = .ok a ∧ f a = b
  := by
  cases x with
  | error e => cases h
  | ok a =>
    cases h
    exact ⟨a, rfl, rfl⟩

/-- An untyped value is an instruction only if the instruction is written there. -/
theorem isWritten_of_ofDatum {d : Datum} {i : Instruction Nat} (h : ofDatum d = .ok i) :
  IsWritten d i
  := by
  rw [ofDatum_eq] at h
  cases ho : opcodeOfDatum (d.field "op") with
  | error m =>
    rw [ho] at h
    cases h
  | ok o =>
    have hop := opcodeOfDatum_eq_ok ho
    rw [ho] at h
    cases o with
    | loadc =>
      obtain ⟨value, hvalue, rfl⟩ := map_eq_ok h
      obtain ⟨hd, hw⟩ := constantOfDatum_eq_ok hvalue
      constructor
      · exact hop
      · rintro _ ⟨⟩
        apply hd
      · rintro _ ⟨⟩
      · apply hw
    | jump =>
      obtain ⟨target, htarget, rfl⟩ := map_eq_ok h
      constructor
      · exact hop
      · rintro _ ⟨⟩
      · rintro _ ⟨⟩
        apply targetOfDatum_eq_ok htarget
      · trivial
    | jumpz =>
      obtain ⟨target, htarget, rfl⟩ := map_eq_ok h
      constructor
      · exact hop
      · rintro _ ⟨⟩
      · rintro _ ⟨⟩
        apply targetOfDatum_eq_ok htarget
      · trivial
    | _ =>
      cases h
      constructor
      · exact hop
      · rintro _ ⟨⟩
      · rintro _ ⟨⟩
      · trivial

/-- An untyped value is an instruction if the instruction is written there. -/
theorem IsWritten.ofDatum {d : Datum} {i : Instruction Nat} (h : IsWritten d i) :
  ofDatum d = .ok i
  := by
  have ho : opcodeOfDatum (d.field "op") = .ok i.opcode := by
    rw [h.opcode]
    apply opcodeOfDatum_mnemonic
  rw [ofDatum_eq, ho]
  cases i with
  | loadc value =>
    change loadc <$> constantOfDatum .loadc (d.field "value") = .ok (loadc value)
    rw [h.constant value rfl, constantOfDatum, if_pos (show Word.IsWord value from h.isWellFormed)]
    rfl
  | jump target =>
    obtain ⟨x, hx, hi⟩ := h.target target rfl
    change jump <$> targetOfDatum .jump (d.field "target") = .ok (jump target)
    rw [hx, targetOfDatum, hi]
    rfl
  | jumpz target =>
    obtain ⟨x, hx, hi⟩ := h.target target rfl
    change jumpz <$> targetOfDatum .jumpz (d.field "target") = .ok (jumpz target)
    rw [hx, targetOfDatum, hi]
    rfl
  | _ => rfl

/-- The value in which a jump is written jumps to the same position. -/
theorem IsWritten.jumpTarget? {d : Datum} {i : Instruction Nat} {target : Nat}
    (h : IsWritten d i) (ht : i.target? = some target) :
  ∃ x, jumpTarget? d = some x ∧ x.toIndex? = some target
  := by
  obtain ⟨x, hx, hi⟩ := h.target target ht
  have hinteger : x.isInteger = true := by
    obtain ⟨n, hn, -⟩ := Option.bind_eq_some_iff.mp hi
    rw [Number.isInteger, hn]
    rfl
  have hop : i.opcode.mnemonic = Text.ofString "jump" ∨ i.opcode.mnemonic = Text.ofString "jumpz" := by
    cases i with
    | jump => exact .inl rfl
    | jumpz => exact .inr rfl
    | _ => cases ht
  use x
  constructor
  · rw [StackMachine.jumpTarget?, h.opcode, hx]
    exact if_pos ⟨hop, hinteger⟩
  · apply hi

/-- An instruction with a constant that is a word is written in its own untyped value. -/
theorem IsWellFormed.isWritten {i : Instruction Nat} (h : i.IsWellFormed) :
  IsWritten (i.map Number.ofNat).toDatum i
  := by
  constructor
  · cases i <;> rfl
  · rintro value rfl
    rfl
  · intro target ht
    use Number.ofNat target
    constructor
    · cases i <;> cases ht <;> rfl
    · rfl
  · exact h

end Instruction

/-! ### Programs -/

/-- Values that may be missing are all there exactly if the list is one of values. -/
theorem mapM_id_eq_some_iff {α : Type} {found : List (Option α)} {values : List α} :
  found.mapM id = some values ↔ found = values.map some
  := by
  induction found generalizing values with
  | nil => cases values <;> simp
  | cons a found ih =>
    rw [List.mapM_cons]
    cases a with
    | none => cases values <;> simp
    | some a => cases values <;> simp [Option.bind_eq_some_iff, ih, and_comm]

/-- One of the values is missing exactly if there is a place without one. -/
theorem mapM_id_eq_none_iff {α : Type} {found : List (Option α)} :
  found.mapM id = none ↔ none ∈ found
  := by
  induction found with
  | nil => simp
  | cons a found ih =>
    rw [List.mapM_cons, List.mem_cons, ← ih]
    cases a with
    | none => simp
    | some a => cases found.mapM id <;> simp

/-- A program has no structural faults exactly when each of its elements is an
instruction. -/
theorem checkStructure_eq_nil_iff (data : List Datum) :
  checkStructure data = some [] ↔ ∀ d ∈ data, ∃ i, Instruction.ofDatum d = .ok i
  := by
  rw [checkStructure, mapM_id_eq_some_iff, List.map_nil, findings, List.filterMap_eq_nil_iff]
  constructor
  · intro h d hd
    obtain ⟨n, hn, rfl⟩ := List.getElem_of_mem hd
    have h := h (data[n], n) (List.mem_zipIdx_iff_getElem?.mpr (by simp))
    simp only at h
    split at h
    · next i hi => use i
    · cases h
  · rintro h ⟨d, n⟩ hd
    obtain ⟨i, hi⟩ := h d (List.fst_mem_of_mem_zipIdx hd)
    simp only [hi]

/-- Each element of a list is related to something exactly if the whole list is related to some
list. -/
theorem exists_forall₂_iff {α β : Type} {R : α → β → Prop} {items : List α} :
  (∃ results, List.Forall₂ R items results) ↔ ∀ a ∈ items, ∃ b, R a b
  := by
  induction items with
  | nil => exact ⟨fun _ => List.forall_mem_nil _, fun _ => ⟨[], .nil⟩⟩
  | cons a items ih =>
    rw [List.forall_mem_cons, ← ih]
    constructor
    · rintro ⟨_, _ | ⟨ha, hitems⟩⟩
      exact ⟨⟨_, ha⟩, _, hitems⟩
    · rintro ⟨⟨b, ha⟩, results, hitems⟩
      exact ⟨b :: results, .cons ha hitems⟩

/-- The instructions of a program are those that its elements are. -/
theorem filterMap_eq_of_forall₂ {data : List Datum} {code : Code}
    (h : List.Forall₂ (fun d i => Instruction.ofDatum d = .ok i) data code) :
  data.filterMap (fun d => (Instruction.ofDatum d).toOption) = code
  := by
  induction h with
  | nil => rfl
  | cons hd _ ih => rw [List.filterMap_cons, hd, Except.toOption, ih]

/-- A program becomes code exactly when each of its elements is the instruction at the same
place of the code. -/
theorem Code.ofData_eq_ok_iff {data : List Datum} {code : Code} :
  Code.ofData data = .ok code
    ↔ List.Forall₂ (fun d i => Instruction.ofDatum d = .ok i) data code
  := by
  constructor
  · intro h
    rw [Code.ofData] at h
    split at h
    · cases h
    · next hnil =>
      obtain ⟨code', hcode⟩ := exists_forall₂_iff.mpr ((checkStructure_eq_nil_iff data).mp hnil)
      rw [filterMap_eq_of_forall₂ hcode] at h
      cases h
      apply hcode
    · cases h
  · intro h
    have hnil : checkStructure data = some [] := by
      apply (checkStructure_eq_nil_iff data).mpr
      apply exists_forall₂_iff.mp ⟨code, h⟩
    rw [Code.ofData, hnil, ← filterMap_eq_of_forall₂ h]

/-- A program without structural faults becomes code. -/
theorem Code.exists_of_checkStructure {data : List Datum} (h : checkStructure data = some []) :
  ∃ code, Code.ofData data = .ok code
  := by
  obtain ⟨code, hcode⟩ := exists_forall₂_iff.mpr ((checkStructure_eq_nil_iff data).mp h)
  use code
  apply Code.ofData_eq_ok_iff.mpr hcode

/-- The instructions of the code of a program are written in its elements. -/
theorem Code.exists_isWritten {data : List Datum} {code : Code}
    (h : Code.ofData data = .ok code) {i : Instruction Nat} (hi : i ∈ code) :
  ∃ d ∈ data, Instruction.IsWritten d i
  := by
  have h := Code.ofData_eq_ok_iff.mp h
  obtain ⟨n, hn, rfl⟩ := List.getElem_of_mem hi
  have hn' : n < data.length := h.length_eq ▸ hn
  use data[n], List.getElem_mem hn'
  apply Instruction.isWritten_of_ofDatum
  apply h.get hn' hn

/-- The code of a program is as long as the program. -/
theorem Code.length_of_ofData {data : List Datum} {code : Code}
    (h : Code.ofData data = .ok code) :
  data.length = code.length
  := (Code.ofData_eq_ok_iff.mp h).length_eq

/-- Code whose constants are words is a program without structural faults. -/
theorem Code.ofData_toProgram {code : Code} (h : ∀ i ∈ code, i.IsWellFormed) :
  Code.ofData code.toProgram.toData = .ok code
  := by
  apply Code.ofData_eq_ok_iff.mpr
  rw [Program.toData, Code.toProgram, List.map_map]
  induction code with
  | nil => apply List.Forall₂.nil
  | cons i code ih =>
    apply List.Forall₂.cons
    · apply (h i List.mem_cons_self).isWritten.ofDatum
    · apply ih fun i hi => h i (List.mem_cons_of_mem _ hi)

/-- The untyped value of an instruction is read as the instruction, but for the sign of a
zero to which it jumps. -/
theorem Instruction.map_of_ofDatum_toDatum {i : Instruction Number} {j : Instruction Nat}
    (h : ofDatum i.toDatum = .ok j) :
  j.map Number.ofNat = i.map Number.unsigned
  := by
  have hop : i.toDatum.field "op" = .string i.opcode.mnemonic := by
    cases i <;> rfl
  rw [ofDatum_eq, hop, opcodeOfDatum_mnemonic] at h
  cases i with
  | loadc value =>
    obtain ⟨_, hvalue, rfl⟩ := map_eq_ok h
    obtain ⟨⟨⟩, -⟩ := constantOfDatum_eq_ok hvalue
    rfl
  | jump target =>
    obtain ⟨_, htarget, rfl⟩ := map_eq_ok h
    obtain ⟨_, ⟨⟩, hx⟩ := targetOfDatum_eq_ok htarget
    rw [map, map, Number.unsigned_of_toIndex? hx]
  | jumpz target =>
    obtain ⟨_, htarget, rfl⟩ := map_eq_ok h
    obtain ⟨_, ⟨⟩, hx⟩ := targetOfDatum_eq_ok htarget
    rw [map, map, Number.unsigned_of_toIndex? hx]
  | load | store | pop | new | halt | binary | unary =>
    cases h
    rfl

/-- Instructions that jump to the same numbers jump to the same positions. -/
theorem Instruction.map_ofNat_injective :
  Function.Injective (Instruction.map Number.ofNat)
  := by
  apply Function.LeftInverse.injective (g := Instruction.map fun x => x.toIndex?.getD 0)
  intro i
  cases i with
  | jump target | jumpz target =>
    rw [map, map, Number.toIndex?_ofNat]
    rfl
  | _ => rfl

/-- Code that is a program is read as itself. -/
theorem Code.eq_of_ofData_toProgram {code code' : Code}
    (h : Code.ofData code.toProgram.toData = .ok code') :
  code' = code
  := by
  have hread := Code.ofData_eq_ok_iff.mp h
  rw [Program.toData, toProgram, List.map_map, List.forall₂_map_left_iff] at hread
  clear h
  induction hread with
  | nil => rfl
  | @cons i j code code' hi _ ih =>
    have hmap := Instruction.map_of_ofDatum_toDatum hi
    have hunsigned : (i.map Number.ofNat).map Number.unsigned = i.map Number.ofNat := by
      cases i <;> rfl
    rw [hunsigned] at hmap
    rw [ih, Instruction.map_ofNat_injective hmap]

/-- A program without structural faults is code whose constants are words, but for the signs
of zeros to which it jumps. -/
theorem Program.exists_code {p : Program} (h : checkStructure p.toData = some []) :
  ∃ code : Code, code.toProgram = p.map (·.map Number.unsigned)
    ∧ ∀ i ∈ code, i.IsWellFormed
  := by
  obtain ⟨code, hcode⟩ := Code.exists_of_checkStructure h
  use code
  constructor
  · have hread := Code.ofData_eq_ok_iff.mp hcode
    rw [toData, List.forall₂_map_left_iff] at hread
    clear h hcode
    induction hread with
    | nil => rfl
    | cons hi _ ih =>
      rw [Code.toProgram, List.map_cons, List.map_cons, ← ih,
        Instruction.map_of_ofDatum_toDatum hi]
      rfl
  · intro i hi
    obtain ⟨d, -, hd⟩ := Code.exists_isWritten hcode hi
    apply hd.isWellFormed

/-! ### Machines -/

/-- A machine is made of a program without structural faults and options that set
limits. -/
theorem Machine.create_eq_ok_iff {data : List Datum} {options : MachineOptions} {m : Machine} :
  Machine.create data options = .ok m
    ↔ ∃ code limits, Code.ofData data = .ok code
      ∧ Limits.ofOptions options.toLimitOptions = .ok limits
      ∧ m = Machine.ofCode code limits options.runId options.traced
  := by
  rw [Machine.create]
  cases Code.ofData data with
  | error e => simp [bind, Except.bind]
  | ok code =>
    cases Limits.ofOptions options.toLimitOptions with
    | error e => simp [bind, Except.bind]
    | ok limits => simp [bind, Except.bind, pure, Except.pure, eq_comm]

theorem Machine.not_started_of_create {data : List Datum} {options : MachineOptions}
    {m : Machine} (h : Machine.create data options = .ok m) :
  m.started = false
  := by
  obtain ⟨code, limits, -, -, rfl⟩ := create_eq_ok_iff.mp h
  rfl

/-- The code of a machine that is made of code is that code. -/
theorem Machine.code_of_create_toProgram {code : Code} {options : MachineOptions} {m : Machine}
    (h : Machine.create code.toProgram.toData options = .ok m) :
  m.code = code
  := by
  obtain ⟨code', limits, hcode, -, rfl⟩ := create_eq_ok_iff.mp h
  apply Code.eq_of_ofData_toProgram hcode

/-- A machine can be made of code whose constants are words. -/
theorem Machine.create_toProgram {code : Code} {options : MachineOptions} {limits : Limits}
    (hcode : ∀ i ∈ code, i.IsWellFormed)
    (hlimits : Limits.ofOptions options.toLimitOptions = .ok limits) :
  Machine.create code.toProgram.toData options
    = .ok (Machine.ofCode code limits options.runId options.traced)
  := Machine.create_eq_ok_iff.mpr ⟨code, limits, Code.ofData_toProgram hcode, hlimits, rfl⟩

end StackMachine
