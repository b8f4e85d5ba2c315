import StackMachine.Proofs.Assembly.StaticSemantics

/-!
# Problems of lines

Which token a problem is about.  A parse error is about the token that was found, and what is wrong
with lines that are encoded is about a label that they define, or about the operand or the
mnemonic of an instruction.
-/

namespace StackMachine

namespace Assembly

/-! ### Parse errors -/

/-- The token that was found where it cannot come. -/
def ParseError.found? : ParseError → Option Token
  | expectedColon t => some t
  | expectedNewline t => some t
  | redundant t => some t
  | unfinished => none

theorem ParseError.span_of_found? {e : ParseError} {t : Token} (h : e.found? = some t)
    (file : Text) :
  e.span file = t.span file
  := by
  cases e <;> cases h <;> rfl

/-! ### Lines -/

/-- A problem is one of an instruction: it is about its operand, or about its mnemonic if it has no
operand. -/
inductive Statement.HasProblem (s : Statement) : Problem → Prop where
  | unknownLabel {t : Token} (ho : s.operand = some (.label t)) : HasProblem s (.unknownLabel t)
  | constantRange {t : Token} (ho : s.operand = some (.integer t)) :
    HasProblem s (.constantRange t)
  | unexpectedOperand {o : Operand} (ho : s.operand = some o) :
    HasProblem s (.unexpectedOperand s.opcode o.token)
  | missingOperand (ho : s.operand = none) : HasProblem s (.missingOperand s.opcode s.mnemonic)
  | noTarget {o : Operand} (ho : s.operand = some o) (value : Int) :
    HasProblem s (.noTarget value o.token)

/-- A computation that goes on after another fails if that does, or afterwards. -/
theorem bind_eq_error {ε α β : Type} {x : Except ε α} {f : α → Except ε β} {e : ε}
    (h : x >>= f = .error e) :
  x = .error e ∨ ∃ a, x = .ok a ∧ f a = .error e
  := by
  cases x with
  | error e' =>
    cases h
    exact .inl rfl
  | ok a => exact .inr ⟨a, rfl, h⟩

/-- What comes of a computation fails only if that does. -/
theorem map_eq_error {ε α β : Type} {x : Except ε α} {f : α → β} {e : ε}
    (h : x.map f = .error e) :
  x = .error e
  := by
  cases x with
  | error e' =>
    cases h
    rfl
  | ok a => cases h

section

variable {table : List Definition} {s : Statement} {o : Operand} {p : Problem}

theorem hasProblem_of_resolve (ho : s.operand = some o) (h : resolve table o = .error p) :
  s.HasProblem p
  := by
  cases o with
  | label t =>
    rw [resolve] at h
    split at h
    · cases h
    · cases h
      apply Statement.HasProblem.unknownLabel ho
  | integer t =>
    rw [resolve] at h
    split at h
    · cases h
    · cases h
      apply Statement.HasProblem.constantRange ho

theorem hasProblem_of_targetOf (ho : s.operand = some o) {value : Int}
    (h : targetOf o.token value = .error p) :
  s.HasProblem p
  := by
  rw [targetOf] at h
  split at h
  · cases h
  · cases h
    apply Statement.HasProblem.noTarget ho

/-- What is wrong with an instruction that is not encoded is a problem of it. -/
theorem hasProblem_of_encode (h : encode table s = .error p) :
  s.HasProblem p
  := by
  rw [encode] at h
  split at h
  · cases h
  · next ho =>
    cases h
    apply Statement.HasProblem.unexpectedOperand ho
  · next ho =>
    cases h
    apply Statement.HasProblem.missingOperand ho
  · next o _ ho =>
    obtain hresolve | ⟨value, -, h⟩ := bind_eq_error h
    · apply hasProblem_of_resolve ho hresolve
    · split at h
      · cases h
      · obtain htarget | ⟨t, -, h⟩ := bind_eq_error h
        · apply hasProblem_of_targetOf ho htarget
        · cases h
      · obtain htarget | ⟨t, -, h⟩ := bind_eq_error h
        · apply hasProblem_of_targetOf ho htarget
        · cases h

end

/-- What is wrong with lines is a label that is defined again, or a problem of an instruction. -/
theorem cases_of_encodeLines {lines : List Line} {ps : List Problem}
    (h : encodeLines lines = .error ps) {p : Problem} (hp : p ∈ ps) :
  (∃ t ∈ repeated (labels lines), p = .duplicateLabel t)
    ∨ ∃ s ∈ statements lines, s.HasProblem p
  := by
  rw [encodeLines] at h
  split at h
  · cases h
  · next hne =>
    cases h
    rcases List.mem_append.mp hp with hp | hp
    · left
      rw [duplicates_definitions] at hp
      obtain ⟨t, ht, rfl⟩ := List.mem_map.mp hp
      exact ⟨t, ht, rfl⟩
    · right
      obtain ⟨r, hr, hrp⟩ := List.mem_filterMap.mp hp
      obtain ⟨s, hs, hencode⟩ := List.mem_map.mp hr
      use s, hs
      cases r with
      | ok i => cases hrp
      | error q =>
        cases hrp
        apply hasProblem_of_encode hencode

/-- Only parse errors are reported with their code. -/
theorem exists_grammatical_of_code {p : Problem} {file : Text}
    (h : (p.diagnostic file).code = Text.ofString "E_PARSE") :
  ∃ e, p = .grammatical e
  := by
  have hne : ∀ code ∈ [Text.ofString "E_LEX", "E_DUP_LABEL", "E_UNKNOWN_LABEL", "E_RANGE",
      "E_OPERAND", "E_TARGET"], code ≠ Text.ofString "E_PARSE" := by decide
  cases p with
  | grammatical e => exact ⟨e, rfl⟩
  | lexical | duplicateLabel | unknownLabel | constantRange | unexpectedOperand
  | missingOperand | noTarget => cases hne _ (by simp [Problem.diagnostic]) h

/-- What is wrong with lines is never a parse error. -/
theorem code_ne_of_encodeLines {lines : List Line} {ps : List Problem}
    (h : encodeLines lines = .error ps) {p : Problem} (hp : p ∈ ps) (file : Text) :
  (p.diagnostic file).code ≠ Text.ofString "E_PARSE"
  := by
  intro hcode
  obtain ⟨e, rfl⟩ := exists_grammatical_of_code hcode
  rcases cases_of_encodeLines h hp with ⟨t, -, ht⟩ | ⟨s, -, hs⟩
  · cases ht
  · cases hs

end Assembly

end StackMachine
