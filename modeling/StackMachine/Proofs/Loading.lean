import StackMachine.Proofs.Assembly.Sources
import StackMachine.Proofs.Json.Programs
import StackMachine.Proofs.Machine.Options
import StackMachine.Proofs.Validation
import StackMachine.Source.Lowering

/-!
# Loading programs

A program comes from assembly, from JSON or from statements.  Each loader delivers a program
exactly if it reports nothing.  Assembled code has no structural faults.  A JSON program has one
instruction for each element of its array, and its only structural faults are constants that
are no words and jumps to negative integers.
-/

namespace StackMachine

/-! ### Reports -/

/-- What a loader reports: nothing if it delivers something. -/
def reports {ε α : Type} : Except (List ε) α → List ε
  | .ok _ => []
  | .error problems => problems

/-- A loader that never refuses without a reason delivers something exactly if it reports
nothing. -/
theorem exists_ok_iff_reports {ε α : Type} {r : Except (List ε) α} (h : r ≠ .error []) :
  (∃ a, r = .ok a) ↔ reports r = []
  := by
  cases r with
  | ok a => exact ⟨fun _ => rfl, fun _ => ⟨a, rfl⟩⟩
  | error problems =>
    constructor
    · rintro ⟨_, ⟨⟩⟩
    · rintro (rfl : problems = [])
      cases h rfl

/-- Reasons that are told in another way are still reasons. -/
theorem mapError_ne_error_nil {ε ε' α : Type} {r : Except (List ε) α} (h : r ≠ .error [])
    (f : ε → ε') :
  r.mapError (List.map f) ≠ .error []
  := by
  cases r with
  | ok a => rintro ⟨⟩
  | error problems =>
    intro hmap
    injection hmap with hmap
    rw [List.map_eq_nil_iff.mp hmap] at h
    cases h rfl

namespace Assembly

theorem assemble_ne_error_nil (source : Text) :
  assemble source ≠ .error []
  := by
  rw [assemble]
  split
  · split
    · rw [encodeLines]
      split
      · rintro ⟨⟩
      · next h =>
        intro hnil
        injection hnil with hnil
        apply h hnil
    · rintro ⟨⟩
  · next h =>
    intro hnil
    injection hnil with hnil
    apply h (List.map_eq_nil_iff.mp hnil)

theorem assemble_of_assembleFile {source file : Text} {code : Code}
    (h : assembleFile source file = .ok code) :
  assemble source = .ok code
  := by
  rw [assembleFile] at h
  cases hassemble : assemble source with
  | ok code' =>
    rw [hassemble] at h
    cases h
    rfl
  | error problems =>
    rw [hassemble] at h
    cases h

end Assembly

theorem Source.lower_ne_error_nil (statements : List Source.Stmt) :
  Source.lower statements ≠ .error []
  := by
  rw [Source.lower]
  split
  · rintro ⟨⟩
  · next hne _ =>
    intro hnil
    injection hnil with hnil
    apply hne hnil

namespace ProgramFile

/-! ### Elements of JSON programs -/

/-- What a JSON value has to be for an instruction: an object that names the opcode, and holds
the immediate if the opcode has one.  A target is a number that is an integer, and a constant a
number that is exact or a text that denotes it. -/
structure Describes (fields : Fields Json) (i : Instruction Number) : Prop where
  opcode : fields.get? "op" = some (.string i.opcode.mnemonic)
  target : ∀ x, i.target? = some x → fields.get? "target" = some (.number x) ∧ x.isInteger = true
  constant : ∀ n, i = .loadc n →
    (∃ x, fields.get? "value" = some (.number x) ∧ x.toSafeInt? = some n)
      ∨ ∃ t, fields.get? "value" = some (.string t) ∧ Text.toInt? t = some n

/-- A value that is an instruction describes it. -/
theorem Notates.exists_describes {v : Json} {i : Instruction Number} (h : Notates v i) :
  ∃ fields, v = .object fields ∧ Describes fields i
  := by
  cases h with
  | constant hfields hconstant =>
    obtain ⟨fields, rfl, hfields⟩ := hfields
    use fields, rfl, hfields "op"
    · rintro _ ⟨⟩
    · rintro _ ⟨⟩
      cases hconstant with
      | @number x _ hn hsafe =>
        left
        exact ⟨x, hfields "value", Number.toSafeInt?_eq_some_iff.mpr ⟨hn, hsafe⟩⟩
      | @text t _ hnumeral =>
        right
        exact ⟨t, hfields "value", Text.toInt?_eq_some_iff.mpr hnumeral⟩
  | jump hfields hinteger | jumpz hfields hinteger =>
    obtain ⟨fields, rfl, hfields⟩ := hfields
    use fields, rfl, hfields "op"
    · rintro _ ⟨⟩
      exact ⟨hfields "target", hinteger⟩
    · rintro _ ⟨⟩
  | alone hfields hnone =>
    obtain ⟨fields, rfl, hfields⟩ := hfields
    use fields, rfl, hfields "op"
    · intro x hx
      cases i <;> cases hx <;> cases hnone
    · rintro _ rfl
      cases hnone

/-! ### JSON programs -/

/-- The instructions of a JSON text are described by elements of an array. -/
theorem describes_of_ofJsonText {source : Text} {p : Program}
    (h : Program.ofJsonText source = .ok p) :
  ∃ items, Json.parse? source = some (.array items)
    ∧ List.Forall₂ (fun v i => ∃ fields, v = .object fields ∧ Describes fields i) items p
  := by
  obtain ⟨items, hparse, hitems⟩ := Program.ofJsonText_eq_ok_iff.mp h
  exact ⟨items, hparse, hitems.imp fun _ _ hv => hv.exists_describes⟩

/-- Each instruction of a JSON text is described by some object of the array. -/
theorem exists_describes {source : Text} {p : Program} (h : Program.ofJsonText source = .ok p)
    {i : Instruction Number} (hi : i ∈ p) :
  ∃ items fields, Json.parse? source = some (.array items) ∧ .object fields ∈ items
    ∧ Describes fields i
  := by
  obtain ⟨items, hparse, hitems⟩ := describes_of_ofJsonText h
  obtain ⟨index, hlt, rfl⟩ := List.getElem_of_mem hi
  have hindex : index < items.length := by
    rw [hitems.length_eq]
    exact hlt
  obtain ⟨fields, hfields, hdescribes⟩ := hitems.get hindex hlt
  refine ⟨items, fields, hparse, ?_, hdescribes⟩
  rw [← hfields]
  apply List.get_mem

theorem parseJson_ne_error_nil (source : Text) :
  parseJson source ≠ .error []
  := by
  rw [parseJson]
  split
  · next v _ =>
    cases v with
    | array items =>
      rw [ofJson]
      split
      · rintro ⟨⟩
      · next hne =>
        intro hnil
        injection hnil with hnil
        apply hne hnil
    | _ => rintro ⟨⟩
  · rintro ⟨⟩

end ProgramFile

/-! ### Structural faults -/

/-- What the structural check finds wrong with a typed instruction: the constant is no word, or
the target names no position. -/
def Instruction.malformation? : Instruction Number → Option Malformation
  | loadc value => if Word.IsWord value then none else some (.constantRange value)
  | jump target => if target.toIndex?.isSome then none else some (.noTarget target.toText)
  | jumpz target => if target.toIndex?.isSome then none else some (.noTarget target.toText)
  | _ => none

/-- The same is wrong with the untyped value of an instruction. -/
theorem Instruction.malformation?_toDatum (i : Instruction Number) :
  i.toDatum.malformation? = i.malformation?
  := by
  have hop : i.toDatum.field "op" = .string i.opcode.mnemonic := by
    cases i <;> rfl
  have hvalue (value : Int) :
      (loadc value : Instruction Number).toDatum.field "value" = .integer value := rfl
  have hjump (x : Number) : (jump x).toDatum.field "target" = .number x := rfl
  have hjumpz (x : Number) : (jumpz x).toDatum.field "target" = .number x := rfl
  rw [Datum.malformation?, ofDatum_eq, hop, opcodeOfDatum_mnemonic]
  cases i with
  | loadc value =>
    simp only [Except.bind, opcode, hvalue, constantOfDatum, malformation?]
    by_cases hword : Word.IsWord value
    · rw [if_pos hword, if_pos hword]
      rfl
    · rw [if_neg hword, if_neg hword]
      rfl
  | jump target | jumpz target =>
    simp only [Except.bind, opcode, hjump, hjumpz, targetOfDatum, malformation?]
    cases target.toIndex? <;> rfl
  | load | store | pop | new | halt | binary | unary => rfl

/-- There is a message about what is wrong with the untyped value of an instruction. -/
theorem Instruction.not_defiesMessage_toDatum (i : Instruction Number) :
  ¬ i.toDatum.DefiesMessage
  := by
  have hop : i.toDatum.field "op" = .string i.opcode.mnemonic := by
    cases i <;> rfl
  rw [Datum.DefiesMessage, hop]
  rintro (h | ⟨-, h⟩)
  · cases h
  · cases i <;> cases h

/-- The untyped value of an instruction is sound if nothing is wrong with the instruction. -/
theorem Instruction.isSound_toDatum_iff {i : Instruction Number} :
  i.toDatum.IsSound (0 ≤ ·) ↔ i.malformation? = none
  := by
  rw [← Datum.malformation?_eq_none_iff i.not_defiesMessage_toDatum, malformation?_toDatum]

/-- The structural faults of a typed program are what is wrong with its instructions. -/
theorem checkStructure_toData (p : Program) :
  checkStructure p.toData
    = some (p.zipIdx.filterMap fun (i, index) => i.malformation?.map (·.diagnostic index))
  := by
  have htold : ∀ d ∈ p.toData, ¬ d.DefiesMessage := by
    intro d hd
    obtain ⟨i, -, rfl⟩ := List.mem_map.mp hd
    apply i.not_defiesMessage_toDatum
  rw [checkStructure_eq_some htold, Program.toData, List.zipIdx_map, List.filterMap_map]
  congr 1
  apply List.filterMap_congr
  rintro ⟨i, index⟩ -
  simp only [Function.comp_apply, Prod.map, Instruction.malformation?_toDatum, id_eq]

/-- A typed program can be validated. -/
theorem validate_toData {p : Program} {found : List Diagnostic}
    (h : checkStructure p.toData = some found) :
  validate p.toData = .ok (found
    ++ (if p.toData = [] then [emptyProgram] else []) ++ checkJumps p.toData)
  := by
  have hfields : p.toData.all Datum.hasFields = true := by
    rw [Program.toData, List.all_map, List.all_eq_true]
    intro i _
    cases i <;> rfl
  rw [validate, h]
  exact if_pos hfields

/-- What is wrong with an instruction of code is a constant that is no word. -/
theorem Instruction.malformation?_map_eq_none_iff {i : Instruction Nat} :
  (i.map Number.ofNat).malformation? = none ↔ i.IsWellFormed
  := by
  cases i with
  | loadc value =>
    rw [map, malformation?, ite_eq_left_iff]
    constructor
    · intro h
      by_contra hword
      cases h hword
    · intro hword hnot
      contradiction
  | load | store | pop | new | jump | jumpz | halt | binary | unary =>
    exact ⟨fun _ => trivial, fun _ => rfl⟩

/-- An instruction of code leads past the end of a program exactly if its target does. -/
theorem Instruction.exit?_toDatum_map_eq_none_iff {length : Nat} {i : Instruction Nat} :
  (i.map Number.ofNat).toDatum.exit? length = none ↔ ∀ t, i.target? = some t → t < length
  := by
  cases i with
  | jump target | jumpz target =>
    change Option.filter _ (some (Number.ofNat target)) = none ↔ _
    have hle : (Number.ofNat length).le (Number.ofNat target) = true ↔ (length : Int) ≤ target :=
      Number.int_le_iff rfl length
    simp [Option.filter_some, hle, target?]
  | loadc | load | store | pop | new | halt | binary | unary =>
    constructor
    · rintro _ _ ⟨⟩
    · intro _
      rfl

/-- Code is validated without faults exactly if its constants are words, it is not empty and its
jumps stay within it. -/
theorem Code.validate_toProgram_iff {code : Code} :
  validate code.toProgram.toData = .ok []
    ↔ (∀ i ∈ code, i.IsWellFormed) ∧ code ≠ []
      ∧ ∀ i ∈ code, ∀ t, i.target? = some t → t < code.length
  := by
  have hlength : code.toProgram.toData.length = code.length := by
    rw [Program.toData, toProgram, List.length_map, List.length_map]
  have hmem {p : Datum → Prop} :
      (∀ d ∈ code.toProgram.toData, p d) ↔ ∀ i ∈ code, p (i.map Number.ofNat).toDatum := by
    simp only [Program.toData, toProgram, List.map_map, List.forall_mem_map, Function.comp_apply]
  have hstructure : checkStructure code.toProgram.toData = some [] ↔ ∀ i ∈ code, i.IsWellFormed := by
    rw [checkStructure_eq_nil_iff, hmem]
    simp only [Instruction.exists_ofDatum_iff, Instruction.isSound_toDatum_iff,
      Instruction.malformation?_map_eq_none_iff]
  have hnil : code.toProgram.toData = [] ↔ code = [] := by
    rw [← List.length_eq_zero_iff, hlength, List.length_eq_zero_iff]
  rw [validate_eq_ok_nil_iff, hlength, hmem, hstructure, Ne, hnil]
  simp only [Instruction.exit?_toDatum_map_eq_none_iff]

/-- Code whose constants are words has no faults but that it is empty and that jumps lead past
its end. -/
theorem Code.faults_of_isWellFormed {code : Code} (h : ∀ i ∈ code, i.IsWellFormed) :
  checkStructure code.toProgram.toData = some []
    ∧ ∃ faults, validate code.toProgram.toData = .ok faults
      ∧ ∀ d ∈ faults, d.code = "E_EMPTY" ∨ d.code = "E_JUMP_RANGE"
  := by
  have hnil : checkStructure code.toProgram.toData = some [] := by
    have hread := Code.ofData_toProgram h
    rw [Code.ofData] at hread
    split at hread
    · cases hread
    · assumption
    · cases hread
  use hnil
  refine ⟨_, validate_toData hnil, ?_⟩
  intro d hd
  rw [List.nil_append, List.mem_append] at hd
  rcases hd with hd | hd
  · left
    split at hd
    · rw [List.mem_singleton.mp hd]
      rfl
    · cases hd
  · right
    apply (exists_areAbout_checkJumps _).1 d hd

/-! ### Faults of JSON programs -/

/-- A fault that a program from JSON can have: its constant with an index is no word, or its jump
with an index leads to a negative integer. -/
inductive Program.HasFault (p : Program) : Diagnostic → Prop where
  | constant {index : Nat} {value : Int} (here : p[index]? = some (.loadc value))
      (outside : ¬ Word.IsWord value) :
      HasFault p ((Malformation.constantRange value).diagnostic index)
  | target {index : Nat} {i : Instruction Number} {x : Number} {n : Int}
      (here : p[index]? = some i) (jumps : i.target? = some x) (integer : x.toInt? = some n)
      (negative : n < 0) :
      HasFault p ((Malformation.noTarget x.toText).diagnostic index)

theorem Program.HasFault.code {p : Program} {d : Diagnostic} (h : p.HasFault d) :
  d.code = "E_RANGE" ∨ d.code = "E_TARGET"
  := by
  cases h with
  | constant => exact .inl rfl
  | target => exact .inr rfl

/-- What is wrong with a jump to an integer is that the integer is negative. -/
theorem negative_of_toIndex? {x : Number} (hinteger : x.isInteger = true)
    (h : x.toIndex?.isSome ≠ true) :
  ∃ n, x.toInt? = some n ∧ n < 0
  := by
  obtain ⟨n, hn⟩ := Option.isSome_iff_exists.mp hinteger
  use n, hn
  by_contra hnonneg
  rw [Number.toIndex?, hn, Option.bind_some, if_pos (Int.not_lt.mp hnonneg)] at h
  apply h rfl

/-- The structural faults of a JSON program are constants that are no words and jumps to negative
integers. -/
theorem Program.hasFault_of_ofJsonText {source : Text} {p : Program}
    (h : ofJsonText source = .ok p) {found : List Diagnostic}
    (hfound : checkStructure p.toData = some found) {d : Diagnostic} (hd : d ∈ found) :
  p.HasFault d
  := by
  rw [checkStructure_toData] at hfound
  cases hfound
  obtain ⟨⟨i, index⟩, hi, hd⟩ := List.mem_filterMap.mp hd
  obtain ⟨m, hm, rfl⟩ := Option.map_eq_some_iff.mp hd
  have here : p[index]? = some i := List.mem_zipIdx_iff_getElem?.mp hi
  have hinteger : ∀ x, i.target? = some x → x.isInteger = true := by
    obtain ⟨_, _, -, -, hdescribes⟩ := ProgramFile.exists_describes h (List.mem_of_getElem? here)
    intro x hx
    apply (hdescribes.target x hx).2
  cases i with
  | loadc value =>
    rw [Instruction.malformation?] at hm
    split at hm
    · cases hm
    · next outside =>
      cases hm
      apply HasFault.constant here outside
  | jump target | jumpz target =>
    rw [Instruction.malformation?] at hm
    split at hm
    · cases hm
    · next hnone =>
      cases hm
      obtain ⟨n, hn, hneg⟩ := negative_of_toIndex? (hinteger target rfl) hnone
      apply HasFault.target here rfl hn hneg
  | load | store | pop | new | halt | binary | unary => cases hm

/-! ### Loaders -/

/-- Every loader delivers a program exactly if it reports nothing.  Assembled code has no
structural faults, so that it can be found wrong only with being empty or with jumping past its
end; and the structural faults of a JSON program are constants that are no words and jumps to
negative integers.  No text has more than `2 ^ 53 - 1` units. -/
theorem well_typed_loading (source file : Text) (hlength : source.length ≤ Number.maxSafe)
    (statements : List Source.Stmt) :
  (∀ code, Assembly.assembleFile source file = .ok code →
    checkStructure code.toProgram.toData = some []
      ∧ ∃ faults, validate code.toProgram.toData = .ok faults
        ∧ ∀ d ∈ faults, d.code = "E_EMPTY" ∨ d.code = "E_JUMP_RANGE")
  ∧ (∀ p, Program.ofJsonText source = .ok p →
    (∃ items, Json.parse? source = some (.array items)
      ∧ List.Forall₂ (fun v i => ∃ fields, v = .object fields ∧ ProgramFile.Describes fields i)
        items p)
      ∧ ∃ found, checkStructure p.toData = some found ∧ ∀ d ∈ found,
        p.HasFault d ∧ (d.code = "E_RANGE" ∨ d.code = "E_TARGET"))
  ∧ ((∃ code, Assembly.assembleFile source file = .ok code)
    ↔ reports (Assembly.assembleFile source file) = [])
  ∧ ((∃ p, Program.ofJsonText source = .ok p) ↔ reports (Program.ofJsonText source) = [])
  ∧ ((∃ code, Source.lower statements = .ok code) ↔ reports (Source.lower statements) = [])
  := by
  refine ⟨?assembly, ?json, ?assembly_reports, ?json_reports, ?lowering_reports⟩
  case assembly =>
    intro code hcode
    have hassemble := Assembly.assemble_of_assembleFile hcode
    have hcount := Assembly.length_of_assemble hassemble
    apply Code.faults_of_isWellFormed
    intro i hi
    apply (Assembly.isWellFormed_of_assemble hassemble (by omega) i hi).1
  case json =>
    intro p hp
    refine ⟨ProgramFile.describes_of_ofJsonText hp, _, checkStructure_toData p, ?_⟩
    intro d hd
    have hfault := Program.hasFault_of_ofJsonText hp (checkStructure_toData p) hd
    exact ⟨hfault, hfault.code⟩
  case assembly_reports =>
    apply exists_ok_iff_reports
    apply mapError_ne_error_nil (Assembly.assemble_ne_error_nil source)
  case json_reports =>
    apply exists_ok_iff_reports
    apply mapError_ne_error_nil (ProgramFile.parseJson_ne_error_nil source)
  case lowering_reports =>
    apply exists_ok_iff_reports (Source.lower_ne_error_nil statements)

/-- A jump past the end is no structural fault of assembled code, and a jump to a negative integer
is one of a JSON program. -/
theorem well_typed_loading_jumps_out :
  (∃ code, Assembly.assembleFile "jump 7" "f" = .ok code
    ∧ checkStructure code.toProgram.toData = some [])
  ∧ ∃ p, Program.ofJsonText "[\x7b\"op\":\"jump\",\"target\":-1\x7d]" = .ok p
    ∧ ∃ found, checkStructure p.toData = some found ∧ found ≠ [] ∧ ∀ d ∈ found, p.HasFault d
  := by
  constructor
  · obtain ⟨hassembly, -, hreports, -⟩ := well_typed_loading "jump 7" "f" (by decide) []
    obtain ⟨code, hcode⟩ := hreports.mpr (by decide +kernel)
    exact ⟨code, hcode, (hassembly code hcode).1⟩
  · obtain ⟨-, hjson, -⟩ := well_typed_loading "[\x7b\"op\":\"jump\",\"target\":-1\x7d]" "f"
      (by decide) []
    have hp : Program.ofJsonText "[\x7b\"op\":\"jump\",\"target\":-1\x7d]"
        = .ok [.jump (.int (-1))] := by
      decide +kernel
    obtain ⟨-, found, hfound, hfaults⟩ := hjson _ hp
    refine ⟨_, hp, found, hfound, ?_, fun d hd => (hfaults d hd).1⟩
    rintro rfl
    cases hfound

end StackMachine
