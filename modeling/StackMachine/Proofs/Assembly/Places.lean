import Mathlib.Tactic.Common
import StackMachine.Assembly.Assembler

/-!
# Erasure of places

Where in a text its tokens stand matters only for what is reported: erasing the places of
tokens commutes with reading lines and with encoding them.
-/

namespace StackMachine

namespace Assembly

/-! ### Erasure -/

/-- A token without its place. -/
def Token.erase (t : Token) : Token := { t with place := .start }

/-- An operand without places. -/
def Operand.erase : Operand → Operand
  | integer t => integer t.erase
  | label t => label t.erase

/-- A statement without places. -/
def Statement.erase (s : Statement) : Statement :=
  ⟨s.opcode, s.mnemonic.erase, s.operand.map Operand.erase⟩

/-- A line without places. -/
def Line.erase (l : Line) : Line :=
  ⟨l.labels.map Token.erase, l.statement.map Statement.erase⟩

/-- A position within a line without places. -/
def LineState.erase : LineState → LineState
  | labels ls => labels (ls.map Token.erase)
  | named ls name => named (ls.map Token.erase) name.erase
  | opened ls opcode m => opened (ls.map Token.erase) opcode m.erase
  | complete ls s => complete (ls.map Token.erase) s.erase

/-- A parse error without places. -/
def ParseError.erase : ParseError → ParseError
  | expectedColon t => expectedColon t.erase
  | expectedNewline t => expectedNewline t.erase
  | redundant t => redundant t.erase
  | unfinished => unfinished

/-- A problem of assembly without the places of tokens. -/
def Problem.erase : Problem → Problem
  | lexical e => lexical e
  | grammatical e => grammatical e.erase
  | duplicateLabel t => duplicateLabel t.erase
  | unknownLabel t => unknownLabel t.erase
  | constantRange t => constantRange t.erase
  | unexpectedOperand opcode t => unexpectedOperand opcode t.erase
  | missingOperand opcode m => missingOperand opcode m.erase
  | noTarget value t => noTarget value t.erase

/-- A definition of a label without its place. -/
def eraseDefinition (d : Definition) : Definition := (d.1.erase, d.2)

theorem Operand.token_erase (o : Operand) :
  o.erase.token = o.token.erase
  := by
  cases o <;> rfl

/-! ### Lines -/

/-- A step within a line without places is the step, without places. -/
theorem LineState.step_erase (s : LineState) (t : Token) :
  s.erase.step t.erase
    = ((s.step t).map (Sum.map LineState.erase Line.erase)).mapError ParseError.erase
  := by
  obtain ⟨kind, image, place⟩ := t
  cases s with
  | labels ls =>
    cases kind with
    | identifier | mnemonic | newline => rfl
    | integer | colon =>
      simp only [erase, step, Token.erase, List.map_eq_nil_iff]
      split <;> rfl
  | named ls name =>
    cases kind with
    | colon =>
      simp only [erase, step, Except.map, Except.mapError, Sum.map_inl, List.map_append]
      rfl
    | identifier | mnemonic | newline | integer => rfl
  | opened ls opcode m => cases kind <;> rfl
  | complete ls statement => cases kind <;> rfl

theorem LineState.erase_eq_start {s : LineState} :
  s.erase = .start ↔ s = .start
  := by
  cases s <;> simp [erase, start]

/-- The lines of tokens without places are the lines of the tokens, without places. -/
theorem Line.ofTokensFrom_erase (s : LineState) (ts : List Token) :
  ofTokensFrom s.erase (ts.map Token.erase)
    = ((ofTokensFrom s ts).map (List.map Line.erase)).mapError ParseError.erase
  := by
  induction ts generalizing s with
  | nil =>
    rw [List.map_nil, ofTokensFrom, ofTokensFrom]
    by_cases hs : s = .start
    · rw [if_pos hs, if_pos (LineState.erase_eq_start.mpr hs)]
      rfl
    · rw [if_neg hs, if_neg (mt LineState.erase_eq_start.mp hs)]
      rfl
  | cons t ts ih =>
    rw [List.map_cons, ofTokensFrom, ofTokensFrom, LineState.step_erase]
    rcases s.step t with e | s' | line
    · rfl
    · apply ih
    · change Except.map _ (ofTokensFrom (LineState.erase .start) (ts.map Token.erase)) = _
      rw [ih]
      cases ofTokensFrom .start ts <;> rfl

/-! ### Encoding -/

theorem definitions_erase (index : Nat) (lines : List Line) :
  definitions index (lines.map Line.erase) = (definitions index lines).map eraseDefinition
  := by
  induction lines generalizing index with
  | nil => rfl
  | cons line lines ih =>
    have hlabels : line.erase.labels.map (·, index)
        = (line.labels.map (·, index)).map eraseDefinition := by
      rw [Line.erase, List.map_map, List.map_map]
      rfl
    rw [List.map_cons, definitions, definitions, List.map_append, ih, hlabels, Line.erase,
      Option.isSome_map]

theorem duplicates_erase (seen : List Text) (table : List Definition) :
  duplicates seen (table.map eraseDefinition) = (duplicates seen table).map Problem.erase
  := by
  induction table generalizing seen with
  | nil => rfl
  | cons d table ih =>
    obtain ⟨t, index⟩ := d
    rw [List.map_cons, eraseDefinition, duplicates, duplicates, ih, ih]
    change (if seen.contains t.image then _ else _) = _
    split <;> rfl

theorem lookup?_erase (table : List Definition) (name : Text) :
  lookup? (table.map eraseDefinition) name = lookup? table name
  := by
  rw [lookup?, lookup?, List.find?_map, Option.map_map]
  rfl

theorem resolve_erase (table : List Definition) (o : Operand) :
  resolve (table.map eraseDefinition) o.erase = (resolve table o).mapError Problem.erase
  := by
  cases o with
  | label t =>
    rw [Operand.erase, resolve, resolve, lookup?_erase, Token.erase]
    cases lookup? table t.image <;> rfl
  | integer t =>
    simp only [Operand.erase, resolve, Token.erase]
    split <;> rfl

theorem targetOf_erase (t : Token) (value : Int) :
  targetOf t.erase value = (targetOf t value).mapError Problem.erase
  := by
  rw [targetOf, targetOf]
  split <;> rfl

/-- What a statement without places encodes is what the statement encodes, up to places. -/
theorem encode_erase (table : List Definition) (s : Statement) :
  encode (table.map eraseDefinition) s.erase = (encode table s).mapError Problem.erase
  := by
  obtain ⟨opcode, m, operand⟩ := s
  rw [Statement.erase, encode, encode]
  cases Instruction.ofNullary? opcode with
  | some i =>
    cases operand with
    | none => rfl
    | some o => cases o <;> rfl
  | none =>
    cases operand with
    | none => rfl
    | some o =>
      simp only [Option.map_some, resolve_erase, Operand.token_erase, targetOf_erase]
      cases resolve table o with
      | error e => rfl
      | ok value =>
        simp only [Except.mapError, bind, Except.bind]
        cases opcode with
        | loadc => rfl
        | _ => cases targetOf o.token value <;> rfl

theorem encodeAll_erase (lines : List Line) :
  encodeAll (lines.map Line.erase) = (encodeAll lines).map (Except.mapError Problem.erase)
  := by
  have hstatements : (lines.map Line.erase).filterMap Line.statement
      = (lines.filterMap Line.statement).map Statement.erase := by
    rw [List.filterMap_map, List.map_filterMap]
    rfl
  rw [encodeAll, encodeAll, definitions_erase, hstatements, List.map_map, List.map_map]
  apply List.map_congr_left
  intro s _
  apply encode_erase

theorem problems_mapError {α : Type} (f : Problem → Problem)
    (results : List (Except Problem α)) :
  problems (results.map (Except.mapError f)) = (problems results).map f
  := by
  rw [problems, problems, List.filterMap_map, List.map_filterMap]
  congr 1
  funext r
  cases r <;> rfl

theorem filterMap_toOption_mapError {α : Type} (f : Problem → Problem)
    (results : List (Except Problem α)) :
  (results.map (Except.mapError f)).filterMap Except.toOption
    = results.filterMap Except.toOption
  := by
  rw [List.filterMap_map]
  congr 1
  funext r
  cases r <;> rfl

/-- What lines without places encode is what the lines encode, up to places. -/
theorem encodeLines_erase (lines : List Line) :
  encodeLines (lines.map Line.erase)
    = (encodeLines lines).mapError (List.map Problem.erase)
  := by
  rw [encodeLines, encodeLines, definitions_erase, duplicates_erase, encodeAll_erase,
    problems_mapError, filterMap_toOption_mapError, ← List.map_append]
  cases duplicates [] (definitions 0 lines) ++ problems (encodeAll lines) <;> rfl

/-! ### Assembling -/

/-- The code of tokens, or everything that is wrong with them. -/
def assembleTokens (ts : List Token) : Except (List Problem) Code :=
  match Line.ofTokens ts with
  | .ok lines => encodeLines lines
  | .error e => .error [.grammatical e]

/-- What tokens without places assemble to is what the tokens assemble to, up to places. -/
theorem assembleTokens_erase (ts : List Token) :
  assembleTokens (ts.map Token.erase)
    = (assembleTokens ts).mapError (List.map Problem.erase)
  := by
  have h := Line.ofTokensFrom_erase .start ts
  change Line.ofTokens (ts.map Token.erase) = _ at h
  rw [assembleTokens, assembleTokens, h, Line.ofTokens]
  cases Line.ofTokensFrom .start ts with
  | error e => rfl
  | ok lines => apply encodeLines_erase

theorem tokens_map_token (ts : List Token) :
  Lexed.tokens (ts.map .token) = ts
  := by
  rw [Lexed.tokens, List.filterMap_map]
  apply List.filterMap_some

theorem errors_map_token (ts : List Token) :
  Lexed.errors (ts.map .token) = []
  := by
  rw [Lexed.errors, List.filterMap_map]
  apply List.filterMap_eq_nil_iff.mpr
  intro t _
  rfl

/-- A text that scans without errors is assembled as its tokens are, wherever they stand. -/
theorem assemble_iff_of_scan {source : Text} {ts : List Token} {code : Code}
    (hscan : Lexed.scan .start (terminated source) = ts.map .token) :
  assemble source = .ok code ↔ assembleTokens (ts.map Token.erase) = .ok code
  := by
  have hassemble : assemble source = assembleTokens ts := by
    simp only [assemble, hscan, errors_map_token, tokens_map_token]
    rfl
  rw [hassemble, assembleTokens_erase]
  cases assembleTokens ts with
  | error e =>
    constructor
    · rintro ⟨⟩
    · rintro ⟨⟩
  | ok code' => exact Iff.rfl

end Assembly

end StackMachine
