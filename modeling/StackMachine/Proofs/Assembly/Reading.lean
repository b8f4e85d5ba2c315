import StackMachine.Assembly.Listing
import StackMachine.Proofs.Assembly.Scanning
import StackMachine.Proofs.Structure

/-!
# Reading lines

How the lines of which listings are made are read: a line of labels, and a line with an
instruction.  A text made of lines is read line by line.
-/

namespace StackMachine

/-! ### Words -/

/-- A text that is one word. -/
def Text.IsWord : Text → Prop
  | [] => False
  | u :: v => u.isWordStart = true ∧ ∀ x ∈ v, x.isWordPart = true

instance : DecidablePred Text.IsWord
  | [] => inferInstanceAs (Decidable False)
  | _ :: v => @instDecidableAnd _ _ _ (List.decidableBAll _ v)

theorem Text.IsWord.isWordPart {w : Text} (hw : w.IsWord) :
  ∀ x ∈ w, x.isWordPart = true
  := by
  cases w with
  | nil => cases hw
  | cons u v =>
    apply List.forall_mem_cons.mpr ⟨_, hw.2⟩
    rw [CodeUnit.isWordPart, hw.1, Bool.true_or]

theorem Opcode.isWord_mnemonic (o : Opcode) :
  o.mnemonic.IsWord
  := by
  cases o with
  | binary op => cases op <;> decide
  | unary op => cases op <;> decide
  | _ => decide

/-- The label of a position. -/
def Code.label (t : Nat) : Text := CodeUnit.ofChar 'L' :: Text.ofNat t

namespace Code

theorem label_injective {t u : Nat} (h : label t = label u) :
  t = u
  := by
  injection h with _ h
  apply Text.ofNat_injective h

theorem isWord_label (t : Nat) :
  (label t).IsWord
  := by
  constructor
  · rfl
  · intro x hx
    apply CodeUnit.isWordPart_of_isDigit
    apply Text.isDigit_of_mem_ofNat x hx

end Code

namespace Assembly

/-- The mnemonic of an opcode is read as such. -/
theorem wordKind_mnemonic (o : Opcode) :
  Lexeme.wordKind o.mnemonic = .mnemonic o
  := by
  rw [Lexeme.wordKind, Opcode.ofMnemonic?_mnemonic]

/-- No mnemonic begins with the letter with which labels begin. -/
theorem wordKind_label (t : Nat) :
  Lexeme.wordKind (Code.label t) = .identifier
  := by
  have hall : ∀ o ∈ Opcode.all, o.mnemonic.head? ≠ some (CodeUnit.ofChar 'L') := by decide
  have hnone : Opcode.ofMnemonic? (Code.label t) = none := by
    apply List.find?_eq_none.mpr
    intro o ho h
    apply hall o ho
    rw [eq_of_beq h]
    rfl
  rw [Lexeme.wordKind, hnone]

/-- A word scans as one token before a text that does not continue it. -/
theorem scans_isWord {w rest : Text} (hw : w.IsWord)
    (hrest : Text.Stops CodeUnit.isWordPart rest) :
  Scans w rest [.bare (Lexeme.wordKind w) w]
  := by
  cases w with
  | nil => cases hw
  | cons u v => apply scans_word hw.1 hw.2 hrest

/-! ### Texts of lines -/

/-- A text that is read as a line. -/
def IsLine (text : Text) (line : Line) : Prop :=
  ∃ ts, (∀ rest, Scans (text ++ [Text.lineFeed]) rest ts)
    ∧ ∀ more, Line.ofTokensFrom .start (ts ++ more)
      = (Line.ofTokensFrom .start more).map (line :: ·)

/-- Texts that are read as lines, one after another, with their line ends. -/
theorem scans_lines {texts : List Text} {lines : List Line}
    (h : List.Forall₂ IsLine texts lines) :
  ∃ ts, (∀ rest, Scans (texts.flatMap (· ++ [Text.lineFeed])) rest ts)
    ∧ Line.ofTokens ts = .ok lines
  := by
  induction h with
  | nil => exact ⟨[], scans_nil, rfl⟩
  | @cons text line texts lines hline _ ih =>
    obtain ⟨ts, hts, hread⟩ := hline
    obtain ⟨us, hus, hlines⟩ := ih
    use ts ++ us
    constructor
    · intro rest
      rw [List.flatMap_cons]
      apply (hts _).append (hus rest)
    · rw [Line.ofTokens, hread]
      change Except.map _ (Line.ofTokens us) = _
      rw [hlines]
      rfl

/-- Texts put together with a separator, and another one at the end, are the texts with a separator
after each. -/
theorem join_append (separator : Text) {texts : List Text} (h : texts ≠ []) :
  Text.join separator texts ++ separator = texts.flatMap (· ++ separator)
  := by
  induction texts with
  | nil => cases h rfl
  | cons t texts ih =>
    cases texts with
    | nil => simp [Text.join]
    | cons t' texts =>
      rw [Text.join, List.intercalate_cons_cons, List.flatMap_cons, ← ih (by simp)]
      simp [Text.join]

theorem terminated_append (t : Text) :
  terminated (t ++ [Text.lineFeed]) = t ++ [Text.lineFeed]
  := by
  rw [terminated, if_pos List.getLast?_concat]

/-- A text that scans as tokens is assembled as they are. -/
theorem assemble_iff_of_scans {t : Text} {ts : List Token} {code : Code}
    (h : Scans (t ++ [Text.lineFeed]) [] ts) :
  assemble (t ++ [Text.lineFeed]) = .ok code ↔ assembleTokens ts = .ok code
  := by
  obtain ⟨us, q, hscan, rfl⟩ := h .start
  rw [List.append_nil, Lexed.scan, List.append_nil] at hscan
  apply assemble_iff_of_scan
  rw [terminated_append, hscan]

/-- A text made of lines is assembled if the lines encode. -/
theorem assemble_of_lines {texts : List Text} {lines : List Line} {code : Code}
    (h : List.Forall₂ IsLine texts lines) (hne : texts ≠ [])
    (hcode : encodeLines lines = .ok code) :
  assemble (Text.join [Text.lineFeed] texts ++ [Text.lineFeed]) = .ok code
  := by
  obtain ⟨ts, hts, hlines⟩ := scans_lines h
  have hscans := hts []
  rw [← join_append _ hne] at hscans
  apply (assemble_iff_of_scans hscans).mpr
  rw [assembleTokens, hlines]
  apply hcode

/-! ### Lines of labels -/

/-- The token of the label of a position. -/
def labelToken (t : Nat) : Token := .bare .identifier (Code.label t)

/-- The line that consists of labels. -/
def labelsLine (labels : List Nat) : Line := ⟨labels.map labelToken, none⟩

/-- The tokens of labels, each with its colon. -/
def labelTokens (labels : List Nat) : List Token :=
  labels.flatMap fun t => [labelToken t, .bare .colon [CodeUnit.ofChar ':']]

/-- A label with its colon. -/
theorem scans_labelLine (t : Nat) (rest : Text) :
  Scans (Listing.labelLine (Code.label t)) rest (labelTokens [t])
  := by
  have hword := @scans_isWord _ (CodeUnit.ofChar ':' :: rest) (Code.isWord_label t) rfl
  rw [wordKind_label] at hword
  apply hword.append (scans_colon rest)

/-- Labels on one line, separated by blanks. -/
theorem scans_labels (labels : List Nat) (rest : Text) :
  Scans (Text.join [0x20] (labels.map fun t => Listing.labelLine (Code.label t))) rest
    (labelTokens labels)
  := by
  induction labels with
  | nil => apply scans_nil
  | cons t labels ih =>
    cases labels with
    | nil =>
      rw [List.map_singleton, Text.join, List.intercalate_singleton]
      apply scans_labelLine
    | cons t' labels =>
      have hstops : Text.Stops Lexeme.isBlank
          (Text.join [0x20] ((t' :: labels).map fun t => Listing.labelLine (Code.label t))
            ++ rest) := by
        rw [List.map_cons, Text.join, Listing.labelLine, Code.label, List.cons_append,
          List.intercalate_cons_cons_left]
        rfl
      have hblank := scans_blank (u := 0x20) (v := []) rfl nofun hstops
      have h := ((scans_labelLine t _).append hblank).append ih
      rw [List.append_nil] at h
      rw [List.map_cons, List.map_cons, Text.join, List.intercalate_cons_cons]
      apply h

/-- Labels are read as long as no line end comes. -/
theorem ofTokensFrom_labels (labels : List Nat) (ls : List Token) (more : List Token) :
  Line.ofTokensFrom (.labels ls) (labelTokens labels ++ more)
    = Line.ofTokensFrom (.labels (ls ++ labels.map labelToken)) more
  := by
  induction labels generalizing ls with
  | nil =>
    rw [List.map_nil, List.append_nil]
    rfl
  | cons t labels ih =>
    have := ih (ls ++ [labelToken t])
    rw [List.append_assoc] at this
    apply this

/-- A text of labels is read as the line of these labels. -/
theorem isLine_labels (labels : List Nat) :
  IsLine (Text.join [0x20] (labels.map fun t => Listing.labelLine (Code.label t)))
    (labelsLine labels)
  := by
  use labelTokens labels ++ [.bare .newline [Text.lineFeed]]
  constructor
  · intro rest
    apply (scans_labels labels _).append (scans_lineFeed rest)
  · intro more
    rw [List.append_assoc, LineState.start, ofTokensFrom_labels]
    rfl

/-! ### Lines of instructions -/

/-- The operand that is written after the name of an instruction. -/
def operandOf : Instruction Nat → Option Operand
  | .loadc value => some (.integer (.bare .integer (Text.ofInt value)))
  | .jump target => some (.label (labelToken target))
  | .jumpz target => some (.label (labelToken target))
  | _ => none

/-- The statement that is an instruction. -/
def statementOf (i : Instruction Nat) : Statement :=
  ⟨i.opcode, .bare (.mnemonic i.opcode) i.opcode.mnemonic, operandOf i⟩

/-- The line that consists of an instruction. -/
def instructionLine (i : Instruction Nat) : Line := ⟨[], some (statementOf i)⟩

/-- The token of the name of an instruction. -/
theorem scans_mnemonic (o : Opcode) {rest : Text}
    (hrest : Text.Stops CodeUnit.isWordPart rest) :
  Scans o.mnemonic rest [.bare (.mnemonic o) o.mnemonic]
  := by
  have h := scans_isWord o.isWord_mnemonic hrest
  rw [wordKind_mnemonic] at h
  apply h

/-- The text of an instruction, in which a jump names the label of its target. -/
def operationOf (i : Instruction Nat) : Text :=
  match operandOf i with
  | some o => i.opcode.mnemonic ++ 0x20 :: o.token.image
  | none => i.opcode.mnemonic

/-- A decimal does not begin with a blank. -/
theorem stops_ofInt (n : Int) (rest : Text) :
  Text.Stops Lexeme.isBlank (Text.ofInt n ++ rest)
  := by
  cases n with
  | negSucc n => rfl
  | ofNat n =>
    have hdigits := Text.isDigit_of_mem_ofNat (n := n)
    rw [Text.ofInt]
    cases ht : Text.ofNat n with
    | nil => cases Text.ofNat_ne_nil n ht
    | cons d v =>
      rw [ht] at hdigits
      apply (Lexeme.isPlain_of_isDigit (hdigits d List.mem_cons_self)).blank

/-- A word does not begin with a blank. -/
theorem stops_isWord {w : Text} (hw : w.IsWord) (rest : Text) :
  Text.Stops Lexeme.isBlank (w ++ rest)
  := by
  cases w with
  | nil => cases hw
  | cons u v => apply (Lexeme.isPlain_of_isWordStart hw.1).blank

/-- The operand of an instruction scans as its token, and does not begin with a blank. -/
theorem scans_operand {i : Instruction Nat} {o : Operand} (h : operandOf i = some o)
    {rest : Text} (hrest : Text.Stops CodeUnit.isWordPart rest) :
  Scans o.token.image rest [o.token] ∧ Text.Stops Lexeme.isBlank (o.token.image ++ rest)
  := by
  have hlabel (t : Nat) : Scans (Code.label t) rest [labelToken t]
      ∧ Text.Stops Lexeme.isBlank (Code.label t ++ rest) := by
    have hscans := scans_isWord (Code.isWord_label t) hrest
    rw [wordKind_label] at hscans
    exact ⟨hscans, stops_isWord (Code.isWord_label t) rest⟩
  cases i with
  | loadc value =>
    cases h
    exact ⟨scans_ofInt value hrest, stops_ofInt value rest⟩
  | jump target =>
    cases h
    apply hlabel
  | jumpz target =>
    cases h
    apply hlabel
  | load | store | pop | new | halt | binary | unary => cases h

/-- The text of an instruction scans as its name and its operand. -/
theorem scans_operation (i : Instruction Nat) {rest : Text}
    (hrest : Text.Stops CodeUnit.isWordPart rest) :
  Scans (operationOf i) rest
    (.bare (.mnemonic i.opcode) i.opcode.mnemonic
      :: ((operandOf i).map Operand.token).toList)
  := by
  rw [operationOf]
  cases h : operandOf i with
  | none => apply scans_mnemonic i.opcode hrest
  | some o =>
    obtain ⟨hscans, hstops⟩ := scans_operand h hrest
    have hname := @scans_mnemonic i.opcode (0x20 :: (o.token.image ++ rest)) rfl
    have hblank := scans_blank (u := 0x20) (v := []) rfl nofun hstops
    apply hname.append (hblank.append hscans)

/-- The text of an instruction does not begin with a blank. -/
theorem stops_operation (i : Instruction Nat) (rest : Text) :
  Text.Stops Lexeme.isBlank (operationOf i ++ rest)
  := by
  rw [operationOf]
  cases operandOf i with
  | none => apply stops_isWord i.opcode.isWord_mnemonic
  | some o =>
    simp only [List.append_assoc]
    apply stops_isWord i.opcode.isWord_mnemonic

/-- The text of an instruction after two blanks is read as the line of the instruction. -/
theorem isLine_operation (i : Instruction Nat) :
  IsLine (Text.ofString "  " ++ operationOf i) (instructionLine i)
  := by
  refine ⟨.bare (.mnemonic i.opcode) i.opcode.mnemonic
    :: ((operandOf i).map Operand.token).toList ++ [.bare .newline [Text.lineFeed]], ?_, ?_⟩
  · intro rest
    have hblanks : Scans (Text.ofString "  ") (operationOf i ++ (Text.lineFeed :: rest)) [] :=
      scans_blank (u := 0x20) (v := [0x20]) rfl (by simp [Lexeme.isBlank])
        (stops_operation i _)
    have hoperation := @scans_operation i (Text.lineFeed :: rest) rfl
    apply (hblanks.append hoperation).append (scans_lineFeed rest)
  · intro more
    cases i <;> rfl

end Assembly

end StackMachine
