import Mathlib.Data.List.TakeWhile
import StackMachine.Proofs.Assembly.Encoding

/-!
# Sources

What is known of a source that scans and parses: each of its integers is a run of digits that
denotes a value, and it holds far fewer lines with instructions than it has units.
-/

namespace StackMachine

namespace Assembly

/-! ### Integers -/

namespace Lexeme

/-- An integer without sign consists of digits. -/
theorem isDigit_of_unsigned? {s : Text} {n : Nat} (h : unsigned? s = some n) :
  s.take n ≠ [] ∧ ∀ u ∈ s.take n, u.isDigit = true
  := by
  cases s with
  | nil => cases h
  | cons d r =>
    simp only [unsigned?] at h
    generalize hlength : (if d = CodeUnit.ofChar '0' then 0
      else (r.takeWhile CodeUnit.isDigit).length) = m at h
    have hdigits : ∀ u ∈ r.take m, u.isDigit = true := by
      intro u hu
      split at hlength
      · rw [← hlength] at hu
        cases hu
      · rw [← hlength, ← List.prefix_iff_eq_take.mp (List.takeWhile_prefix _)] at hu
        apply List.mem_takeWhile_imp hu
    split at h
    · next hd =>
      split at h
      · cases h
      · cases h
        rw [List.take_succ_cons]
        exact ⟨List.cons_ne_nil _ _, List.forall_mem_cons.mpr ⟨hd, hdigits⟩⟩
    · cases h

/-- An integer consists of digits, perhaps after a minus sign. -/
theorem exists_toInt?_of_integer? {u : CodeUnit} {r : Text} {n : Nat}
    (h : integer? u r = some n) :
  ∃ v, Text.toInt? (u :: r.take n) = some v
  := by
  rw [integer?] at h
  rw [Text.toInt?]
  split at h
  · next hsign =>
    obtain ⟨hne, hdigits⟩ := isDigit_of_unsigned? h
    rw [if_pos hsign, if_pos ⟨hne, List.all_eq_true.mpr hdigits⟩]
    exact ⟨_, rfl⟩
  · next hsign =>
    obtain ⟨k, hk, rfl⟩ := Option.map_eq_some_iff.mp h
    obtain ⟨hne, hdigits⟩ := isDigit_of_unsigned? hk
    cases k with
    | zero => cases hne rfl
    | succ k =>
      rw [List.take_succ_cons] at hdigits
      rw [if_neg hsign, Nat.add_sub_cancel, if_pos (List.all_eq_true.mpr hdigits)]
      exact ⟨_, rfl⟩

/-- What scans as an integer denotes one. -/
theorem exists_toInt?_of_ofText? {u : CodeUnit} {r : Text} {n : Nat}
    (h : ofText? u r = some (token .integer, n)) :
  ∃ v, Text.toInt? (u :: r.take n) = some v
  := by
  have hword (word : Text) : wordKind word ≠ .integer := by
    rw [wordKind]
    split <;> rintro ⟨⟩
  rw [ofText?] at h
  split at h
  · cases h
  · split at h
    · cases h
    · split at h
      · cases h
      · split at h
        · cases h
        · split at h
          · simp only [Option.some.injEq, Prod.mk.injEq, token.injEq] at h
            cases hword _ h.1
          · split at h
            · cases h
            · obtain ⟨k, hk, hn⟩ := Option.map_eq_some_iff.mp h
              cases hn
              apply exists_toInt?_of_integer? hk

end Lexeme

/-- A token that, if it is an integer, denotes one. -/
def Token.Denotes (t : Token) : Prop :=
  t.kind = .integer → ∃ v, Text.toInt? t.image = some v

/-- The integers of a text denote integers. -/
theorem denotes_of_mem_tokens {p : Place} {s : Text} :
  ∀ t ∈ Lexed.tokens (Lexed.scan p s), t.Denotes
  := by
  fun_induction Lexed.scan p s with
  | case1 => exact nofun
  | case2 p u r n kind hkind rest ih =>
    apply List.forall_mem_cons.mpr ⟨_, ih⟩
    rintro (rfl : kind = .integer)
    apply Lexeme.exists_toInt?_of_ofText? hkind
  | case3 p u r x n _ rest _ ih => apply ih
  | case4 p u r _ n ih => apply ih

/-! ### Lengths -/

/-- A text has at least as many units as tokens. -/
theorem length_tokens (p : Place) (s : Text) :
  (Lexed.tokens (Lexed.scan p s)).length ≤ s.length
  := by
  have hcons {tokens : List Token} {u : CodeUnit} {r : Text} {n : Nat}
      (h : tokens.length ≤ (r.drop n).length) : tokens.length + 1 ≤ (u :: r).length := by
    rw [List.length_drop] at h
    rw [List.length_cons]
    omega
  fun_induction Lexed.scan p s with
  | case1 => apply Nat.le_refl
  | case2 p u r n kind _ rest ih => apply hcons ih
  | case3 p u r x n _ rest _ ih => apply Nat.le_of_succ_le (hcons ih)
  | case4 p u r _ n ih => apply Nat.le_of_succ_le (hcons ih)

/-- The instructions of a list of lines, as they are written. -/
def statements (lines : List Line) : List Statement := lines.filterMap Line.statement

/-- The instruction of a line of which so much is read. -/
def LineState.statement? : LineState → Option Statement
  | labels _ => none
  | named _ _ => none
  | opened _ opcode m => some ⟨opcode, m, none⟩
  | complete _ statement => some statement

/-- The line that a token ends bears the instruction that has been read. -/
theorem LineState.statement_of_step {s : LineState} {t : Token} {line : Line}
    (h : s.step t = .ok (.inr line)) :
  line.statement = s.statement?
  := by
  obtain ⟨kind, image, place⟩ := t
  cases s <;> cases kind <;> cases h <;> rfl

/-- An integer that has been read as the operand of an instruction is the last token. -/
theorem LineState.integer_of_step {s s' : LineState} {t t' : Token} {statement : Statement}
    (h : s.step t = .ok (.inl s')) (hstatement : s'.statement? = some statement)
    (hoperand : statement.operand = some (.integer t')) :
  t' = t ∧ t.kind = .integer
  := by
  obtain ⟨kind, image, place⟩ := t
  cases s <;> cases kind <;> cases h <;> cases hstatement <;> cases hoperand
  exact ⟨rfl, rfl⟩

/-- The lines after the one that is being read, and how many tokens they need. -/
theorem length_statements_from {s : LineState} {ts : List Token} {lines : List Line}
    (h : Line.ofTokensFrom s ts = .ok lines) :
  lines.length + (statements lines).length ≤ ts.length + s.statement?.toList.length
  := by
  induction ts generalizing s lines with
  | nil =>
    rw [Line.ofTokensFrom] at h
    split at h
    · cases h
      apply Nat.zero_le
    · cases h
  | cons t ts ih =>
    rw [Line.ofTokensFrom] at h
    split at h
    · cases h
    · next s' _ =>
      have hle := ih h
      have : s'.statement?.toList.length ≤ 1 := by
        cases s'.statement? with
        | none => exact Nat.zero_le 1
        | some statement => exact Nat.le_refl 1
      rw [List.length_cons]
      omega
    · next line hline =>
      obtain ⟨rest, hrest, rfl⟩ := Instruction.map_eq_ok h
      have hle := ih hrest
      have hstart : LineState.start.statement?.toList.length = 0 := rfl
      have hcount : (statements (line :: rest)).length
          = s.statement?.toList.length + (statements rest).length := by
        rw [← LineState.statement_of_step hline, statements, List.filterMap_cons]
        cases line.statement with
        | none => exact (Nat.zero_add _).symm
        | some statement => exact Nat.add_comm _ 1
      rw [hcount, List.length_cons, List.length_cons]
      omega

/-- No instruction is read at the beginning of a line. -/
theorem LineState.not_operand_start {P : Statement → Prop} :
  ∀ statement, start.statement? = some statement → P statement
  := by
  rintro statement ⟨⟩

/-- The integers that instructions have as operands are tokens that denote integers. -/
theorem exists_toInt?_from {s : LineState} {ts : List Token} {lines : List Line}
    (h : Line.ofTokensFrom s ts = .ok lines) (hts : ∀ t ∈ ts, t.Denotes)
    (hs : ∀ statement, s.statement? = some statement → ∀ t,
      statement.operand = some (.integer t) → ∃ v, Text.toInt? t.image = some v) :
  ∀ statement ∈ statements lines, ∀ t,
    statement.operand = some (.integer t) → ∃ v, Text.toInt? t.image = some v
  := by
  induction ts generalizing s lines with
  | nil =>
    rw [Line.ofTokensFrom] at h
    split at h
    · cases h
      intro statement hmem
      cases List.not_mem_nil hmem
    · cases h
  | cons t ts ih =>
    obtain ⟨ht, hts⟩ := List.forall_mem_cons.mp hts
    rw [Line.ofTokensFrom] at h
    split at h
    · cases h
    · next s' hs' =>
      apply ih h hts
      intro statement hstatement t' hoperand
      obtain ⟨rfl, hkind⟩ := LineState.integer_of_step hs' hstatement hoperand
      apply ht hkind
    · next line hline =>
      obtain ⟨rest, hrest, rfl⟩ := Instruction.map_eq_ok h
      intro statement hmem
      rw [statements, List.filterMap_cons, LineState.statement_of_step hline] at hmem
      cases hcurrent : s.statement? with
      | none =>
        rw [hcurrent] at hmem
        apply ih hrest hts LineState.not_operand_start statement hmem
      | some current =>
        rw [hcurrent] at hmem
        rcases List.mem_cons.mp hmem with rfl | hmem
        · apply hs statement hcurrent
        · apply ih hrest hts LineState.not_operand_start statement hmem

/-! ### Sources -/

/-- A source scans and parses without error, as lines. -/
structure Reads (source : Text) (lines : List Line) : Prop where
  scans : Lexed.errors (Lexed.scan .start (terminated source)) = []
  parses : Line.ofTokens (Lexed.tokens (Lexed.scan .start (terminated source))) = .ok lines

variable {source : Text} {lines : List Line}

/-- A source that scans and parses is what its lines encode. -/
theorem Reads.assemble (h : Reads source lines) :
  assemble source = encodeLines lines
  := by
  rw [Assembly.assemble]
  simp only [h.scans, h.parses]

/-- A source that is assembled scans and parses. -/
theorem exists_reads {code : Code} (h : assemble source = .ok code) :
  ∃ lines, Reads source lines ∧ encodeLines lines = .ok code
  := by
  rw [assemble] at h
  split at h
  · next hscans =>
    split at h
    · next lines hparses => exact ⟨lines, ⟨hscans, hparses⟩, h⟩
    · cases h
  · cases h

theorem length_terminated (source : Text) :
  (terminated source).length ≤ source.length + 1
  := by
  rw [terminated]
  split
  · apply Nat.le_succ
  · rw [List.length_append]
    rfl

/-- A source has at least twice as many units as instructions, but for the last line end. -/
theorem Reads.length_statements (h : Reads source lines) :
  2 * (statements lines).length ≤ source.length + 1
  := by
  have hlines := length_statements_from h.parses
  have htokens := length_tokens .start (terminated source)
  have hterminated := length_terminated source
  have hstart : LineState.start.statement?.toList.length = 0 := rfl
  have hle : (statements lines).length ≤ lines.length := List.length_filterMap_le _ _
  omega

/-- A source has at least twice as many units as its code has instructions, but for the last line
end. -/
theorem length_of_assemble {code : Code} (h : assemble source = .ok code) :
  2 * code.length ≤ source.length + 1
  := by
  obtain ⟨lines, hreads, hencoded⟩ := exists_reads h
  have hlength : code.length ≤ (statements lines).length := by
    rw [encodeLines] at hencoded
    split at hencoded
    · cases hencoded
      apply Nat.le_trans (List.length_filterMap_le _ _)
      rw [encodeAll, List.length_map]
      apply Nat.le_refl
    · cases hencoded
  have := hreads.length_statements
  omega

/-- The integers of a source that are operands denote integers. -/
theorem Reads.exists_toInt? (h : Reads source lines) :
  ∀ statement ∈ statements lines, ∀ t,
    statement.operand = some (.integer t) → ∃ v, Text.toInt? t.image = some v
  := exists_toInt?_from h.parses denotes_of_mem_tokens LineState.not_operand_start

end Assembly

end StackMachine
