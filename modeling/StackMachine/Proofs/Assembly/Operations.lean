import StackMachine.Proofs.Assembly.Edits
import StackMachine.Proofs.Assembly.RoundTrip

/-!
# Printed instructions

An instruction on one line, as traces show it, is a line of assembly.  A jump then has its target as
an integer, which is read as a word and has to be a position, and so the targets do not depend on
the length of the program.
-/

namespace StackMachine

namespace Assembly

/-- The text of an instruction on one line. -/
def printed (i : Instruction Nat) : Text :=
  match immediate? i with
  | some n => i.opcode.mnemonic ++ 0x20 :: Text.ofInt n
  | none => i.opcode.mnemonic

/-- The statement that a printed instruction is. -/
def printedStatement (i : Instruction Nat) : Statement :=
  ⟨i.opcode, .bare (.mnemonic i.opcode) i.opcode.mnemonic,
    (immediate? i).map fun n => .integer (.bare .integer (Text.ofInt n))⟩

/-- The line that a printed instruction is. -/
def printedLine (i : Instruction Nat) : Line := ⟨[], some (printedStatement i)⟩

section

variable {i : Instruction Nat} (hi : ∀ t, i.target? = some t → t ≤ Number.maxSafe)

include hi

/-- Targets that are exact numbers are shown as decimals. -/
theorem toText_map_ofNat :
  (i.map Number.ofNat).toText = printed i
  := by
  have htext {t : Nat} (ht : t ≤ Number.maxSafe) : (Number.ofNat t).toText = Text.ofInt t := by
    have hle : (t : Int).natAbs ≤ Nat.pow 2 53 := Nat.le_trans ht (by decide)
    rw [Number.ofNat, Number.toText, if_pos hle]
  cases i with
  | loadc value =>
    change Text.concat [Text.ofString "loadc ", Text.ofInt value] = _
    rw [Text.concat, List.flatten_cons, List.flatten_singleton]
    rfl
  | jump target =>
    change Text.concat [Text.ofString "jump ", (Number.ofNat target).toText] = _
    rw [Text.concat, List.flatten_cons, List.flatten_singleton, htext (hi target rfl)]
    rfl
  | jumpz target =>
    change Text.concat [Text.ofString "jumpz ", (Number.ofNat target).toText] = _
    rw [Text.concat, List.flatten_cons, List.flatten_singleton, htext (hi target rfl)]
    rfl
  | load | store | pop | new | halt | binary | unary => rfl

/-- The immediate of an instruction is a word. -/
theorem isWord_immediate? (hwell : i.IsWellFormed) {n : Int} (hn : immediate? i = some n) :
  Word.IsWord n
  := by
  have hsafe {t : Nat} (ht : t ≤ Number.maxSafe) : Word.IsWord t := by
    rw [Number.maxSafe] at ht
    rw [Word.IsWord, Word.least, Word.greatest]
    omega
  cases i with
  | loadc value =>
    cases hn
    exact hwell
  | jump target | jumpz target =>
    cases hn
    exact hsafe (hi target rfl)
  | load | store | pop | new | halt | binary | unary => cases hn

/-- A printed instruction is encoded as the instruction, whatever labels there are. -/
theorem encode_printedStatement (hwell : i.IsWellFormed) (table : List Definition) :
  encode table (printedStatement i) = .ok i
  := by
  apply encode_eq_ok_iff.mpr
  refine ⟨rfl, ?_, hi⟩
  rw [printedStatement]
  cases hn : immediate? i with
  | none => exact .none
  | some n => exact .some (resolve_ofInt (isWord_immediate? hi hwell hn) rfl table)

end

/-- An instruction that is printed scans as its name and its immediate. -/
theorem scans_printed (i : Instruction Nat) {rest : Text}
    (hrest : Text.Stops CodeUnit.isWordPart rest) :
  Scans (printed i) rest (.bare (.mnemonic i.opcode) i.opcode.mnemonic
    :: ((immediate? i).map fun n => .bare .integer (Text.ofInt n)).toList)
  := by
  rw [printed]
  cases immediate? i with
  | none => exact scans_mnemonic i.opcode hrest
  | some n =>
    have hname := @scans_mnemonic i.opcode (0x20 :: (Text.ofInt n ++ rest)) rfl
    have hblank := scans_blank (u := 0x20) (v := []) rfl nofun (stops_ofInt n rest)
    exact hname.append (hblank.append (scans_ofInt n hrest))

theorem isLine_printed (i : Instruction Nat) :
  IsLine (printed i) (printedLine i)
  := by
  refine ⟨.bare (.mnemonic i.opcode) i.opcode.mnemonic
    :: ((immediate? i).map fun n => .bare .integer (Text.ofInt n)).toList
      ++ [.bare .newline [Text.lineFeed]], ?_, ?_⟩
  · intro rest
    have hprinted := @scans_printed i (Text.lineFeed :: rest) rfl
    exact hprinted.append (scans_lineFeed rest)
  · intro more
    cases i <;> rfl

/-- Lines without labels define none. -/
theorem definitions_printedLine (index : Nat) (code : Code) :
  definitions index (code.map printedLine) = []
  := by
  induction code generalizing index with
  | nil => rfl
  | cons i code ih => exact ih (index + 1)

/-- Code whose instructions are printed one a line assembles to itself. -/
theorem assemble_printed {code : Code}
    (hcode : ∀ i ∈ code, i.IsWellFormed ∧ ∀ t, i.target? = some t → t ≤ Number.maxSafe) :
  assemble (Text.join [Text.lineFeed] (code.map printed)) = .ok code
  := by
  by_cases hempty : code = []
  · subst hempty
    decide +kernel
  · have hlines : List.Forall₂ IsLine (code.map printed) (code.map printedLine) := by
      rw [List.forall₂_map_left_iff, List.forall₂_map_right_iff]
      apply List.forall₂_same.mpr
      intro i _
      exact isLine_printed i
    have hencode : encodeAll (code.map printedLine) = code.map .ok := by
      have hstatements : (code.map printedLine).filterMap Line.statement
          = code.map printedStatement := by
        rw [List.filterMap_map]
        apply congrFun List.filterMap_eq_map'
      rw [encodeAll, hstatements, List.map_map]
      apply List.map_congr_left
      intro i hi
      obtain ⟨hwell, hsafe⟩ := hcode i hi
      exact encode_printedStatement hsafe hwell _
    -- The line feed behind the last instruction is not printed.
    apply Edit.removeLineFeed.assemble
    apply assemble_of_lines hlines (mt List.map_eq_nil_iff.mp hempty)
    apply encodeLines_eq_ok _ hencode
    rw [definitions_printedLine]
    rfl

/-- The sign of zero is not seen in the text of an instruction. -/
theorem toText_map_unsigned (i : Instruction Number) :
  (i.map Number.unsigned).toText = i.toText
  := by
  cases i with
  | jump target | jumpz target => simp only [Instruction.map, Instruction.toText, toText_unsigned]
  | _ => rfl

/-- The targets of a program bound those of its code. -/
theorem le_of_target? {p : Program} {code : Code} {n : Nat}
    (hcode : code.toProgram = p.map (·.map Number.unsigned))
    (h : ∀ i ∈ p, ∀ x, i.target? = some x → x.le (Number.ofNat n) = true) :
  ∀ i ∈ code, ∀ t, i.target? = some t → t ≤ n
  := by
  intro j hj t ht
  have hmem : j.map Number.ofNat ∈ code.toProgram := List.mem_map_of_mem hj
  rw [hcode] at hmem
  obtain ⟨i, hi, hij⟩ := List.mem_map.mp hmem
  have htarget := congrArg Instruction.target? hij
  rw [Instruction.target?_map, Instruction.target?_map, ht] at htarget
  obtain ⟨x, hx, hxt⟩ := Option.map_eq_some_iff.mp htarget
  have hle := h i hi x hx
  rw [← le_unsigned, hxt] at hle
  exact Number.le_ofNat.mp hle

/-- A program without structural faults whose targets are exact numbers is what the texts of its
instructions assemble to, one a line, wherever its jumps lead; negative zero as a target is 0. -/
theorem assemble_join_toText {p : Program} (hp : checkStructure p.toData = some [])
    (htargets : ∀ i ∈ p, ∀ x, i.target? = some x →
      x.le (Number.ofNat Number.maxSafe) = true) :
  ∃ code : Code, assemble (Text.join [Text.lineFeed] (p.map Instruction.toText)) = .ok code
    ∧ code.toProgram = p.map fun i => i.map Number.unsigned
  := by
  obtain ⟨code, hcode, hwell⟩ := Program.exists_code hp
  have hsafe := le_of_target? hcode htargets
  have htexts : p.map Instruction.toText = code.map printed := by
    calc p.map Instruction.toText
        = (p.map (·.map Number.unsigned)).map Instruction.toText := by
          rw [List.map_map]
          apply List.map_congr_left
          intro i _
          exact (toText_map_unsigned i).symm
      _ = code.toProgram.map Instruction.toText := by rw [hcode]
      _ = code.map printed := by
          rw [Code.toProgram, List.map_map]
          apply List.map_congr_left
          intro i hi
          exact toText_map_ofNat (hsafe i hi)
  refine ⟨code, ?_, hcode⟩
  rw [htexts]
  apply assemble_printed
  intro i hi
  exact ⟨hwell i hi, hsafe i hi⟩

/-- The least word, and jumps to the greatest exact number, to negative zero and past the end. -/
theorem assemble_join_toText_far :
  ∃ code : Code, assemble (Text.join [Text.lineFeed] (List.map Instruction.toText
      [.loadc Word.least, .jumpz (.int 9007199254740991), .jump .negativeZero, .jumpz (.int 7)]))
        = .ok code
    ∧ code.toProgram
      = [.loadc Word.least, .jumpz (.int 9007199254740991), .jump (.int 0), .jumpz (.int 7)]
  := by
  apply assemble_join_toText
  · rfl
  · simp [Instruction.target?, Number.le, Number.ofNat, Number.toRatio?, Number.maxSafe]

end Assembly

end StackMachine
