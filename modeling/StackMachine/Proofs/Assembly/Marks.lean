import StackMachine.Proofs.Assembly.Blame

/-!
# What a diagnostic marks

A diagnostic of a text marks a stretch of one of its lines, and between the columns stands what the
diagnostic is about: the units that were skipped, the token that was found, a label, the operand of
an instruction, or its mnemonic if the operand is missing.
-/

namespace StackMachine

/-- A stretch marks a word in a text: it begins and ends on one line of the text, and between its
columns stands the word. -/
def Span.Marks (s : Span) (text word : Text) : Prop :=
  ∃ n a b line, s.startLine = .ofNat (n + 1) ∧ s.endLine = .ofNat (n + 1)
    ∧ s.startCol = .ofNat (a + 1) ∧ s.endCol = .ofNat (b + 1)
    ∧ (Text.lines text)[n]? = some line ∧ a ≤ b ∧ b ≤ line.length
    ∧ (line.drop a).take (b - a) = word

namespace Assembly

/-! ### Stretches of a text -/

/-- A stretch at the place behind what stands before a word marks the word, if no line feed but its
last unit is in it. -/
theorem Place.marks_span {text before w after : Text} (htext : text = before ++ w ++ after)
    (hne : w ≠ []) (hline : Text.lineFeed ∉ w.dropLast) (file : Text) :
  ((start.after before).span w.length file).Marks text w
  := by
  obtain ⟨a, b, rfl, ha, hb⟩ := Text.exists_endsLine_append before
  have hdrop : Text.lineFeed ∉ (b ++ w).dropLast := by
    rw [List.dropLast_append_of_ne_nil hne, List.mem_append, not_or]
    exact ⟨hb, hline⟩
  obtain ⟨l, hl⟩ := Text.exists_line (List.append_ne_nil_of_right_ne_nil b hne) hdrop after
  have hplace : (start.after (a ++ b)) = ⟨a.length + b.length, a.count Text.lineFeed + 1,
      b.length + 1⟩ := by
    rw [after_append, after_of_not_mem hb, advance, offset_after, line_after, column_after ha,
      start, Nat.zero_add, Nat.add_comm 1, Nat.add_comm 1]
  rw [hplace]
  refine ⟨a.count Text.lineFeed, b.length, b.length + w.length, b ++ w ++ l, rfl, rfl, rfl, ?_, ?_,
    Nat.le_add_right _ _, ?_, ?_⟩
  · rw [Nat.add_right_comm]
    rfl
  · rw [htext, List.append_assoc, List.append_assoc, Text.lines_append ha,
      ← Text.length_lines ha, List.getElem?_append_right (Nat.le_refl _), Nat.sub_self,
      ← List.append_assoc]
    exact hl
  · rw [List.length_append, List.length_append]
    apply Nat.le_add_right
  · rw [List.append_assoc, List.drop_left, Nat.add_sub_cancel_left, List.take_left]

/-- What scanning yields for a text is marked by its stretch. -/
theorem Lexed.Stands.marks {y : Lexed} {text before w after : Text}
    (h : y.Stands (Place.start.after before) w after) (htext : text = before ++ w ++ after)
    (file : Text) :
  ((Place.start.after before).span w.length file).Marks text w
  := Place.marks_span htext h.ne_nil h.lineFeed_not_mem_dropLast file

/-- A token of a text is marked by its stretch. -/
theorem Token.marks_span {text : Text} {t : Token}
    (ht : t ∈ Lexed.tokens (Lexed.scan .start text)) (file : Text) :
  (t.span file).Marks text t.image
  := by
  obtain ⟨y, hy, hyt⟩ := List.mem_filterMap.mp ht
  obtain ⟨before, w, after, htext, hstands⟩ := Lexed.exists_stands y hy
  have hmarks := hstands.marks htext file
  cases hstands with
  | token h =>
    cases hyt
    exact hmarks
  | error h => cases hyt

/-! ### Tokens of lines -/

theorem SpellsLabels.subset {ls us : List Token} (h : SpellsLabels ls us) :
  ls ⊆ us
  := by
  induction h with
  | nil => apply List.Subset.refl
  | concat _ _ _ ih =>
    apply List.append_subset.mpr
    constructor
    · apply List.subset_append_of_subset_left _ ih
    · apply List.subset_append_of_subset_right
      simp

/-- The mnemonic of an instruction and the token of its operand, if it has one. -/
def Statement.tokens (s : Statement) : List Token :=
  s.mnemonic :: (s.operand.map Operand.token).toList

theorem SpellsStatement.subset {s : Statement} {us : List Token}
    (h : SpellsStatement (some s) us) :
  s.tokens ⊆ us
  := by
  cases h with
  | bare hm => apply List.Subset.refl
  | operand hm ho => cases ho <;> apply List.Subset.refl

/-- The labels of a line, and the tokens of its instruction, are among the tokens that spell it. -/
theorem Line.Spells.subset {line : Line} {us : List Token} (h : line.Spells us) :
  line.labels ⊆ us ∧ ∀ s, line.statement = some s → s.tokens ⊆ us
  := by
  obtain ⟨hlabels, hstatement, -⟩ := h
  constructor
  · apply List.subset_append_of_subset_left
    apply List.subset_append_of_subset_left _ hlabels.subset
  · intro s hs
    rw [hs] at hstatement
    apply List.subset_append_of_subset_left
    apply List.subset_append_of_subset_right _ hstatement.subset

section

variable {source : Text} {lines : List Line} (h : Reads source lines)

include h in
/-- The tokens that spell a line of a text are tokens of the text. -/
theorem Reads.exists_spells {line : Line} (hline : line ∈ lines) :
  ∃ us, line.Spells us ∧ us ⊆ Lexed.tokens (Lexed.scan .start (terminated source))
  := by
  obtain ⟨parts, hparts, rfl⟩ := ofTokens_eq_ok_iff.mp h.parses
  obtain ⟨part, hpart, rfl⟩ := List.mem_map.mp hline
  use part.2, hparts.spells part hpart
  rw [← hparts.tokens]
  intro t ht
  apply List.mem_flatMap_of_mem hpart ht

include h in
theorem Reads.labels_subset :
  labels lines ⊆ Lexed.tokens (Lexed.scan .start (terminated source))
  := by
  intro t ht
  obtain ⟨line, hline, ht⟩ := List.mem_flatMap.mp ht
  obtain ⟨us, hspells, hus⟩ := h.exists_spells hline
  apply hus (hspells.subset.1 ht)

include h in
theorem Reads.statement_subset {s : Statement} (hs : s ∈ statements lines) :
  s.tokens ⊆ Lexed.tokens (Lexed.scan .start (terminated source))
  := by
  obtain ⟨line, hline, hs⟩ := List.mem_filterMap.mp hs
  obtain ⟨us, hspells, hus⟩ := h.exists_spells hline
  apply List.Subset.trans (hspells.subset.2 s hs) hus

end

theorem repeated_subset (ls : List Token) :
  repeated ls ⊆ ls
  := by
  intro t ht
  obtain ⟨l, hl, rfl⟩ := List.mem_map.mp ht
  apply List.fst_mem_of_mem_zipIdx (List.mem_of_mem_filter hl)

/-! ### Problems -/

/-- What a problem of a text is about: the units that are skipped, the token that is found where it
cannot come, the label that is defined again or not at all, the operand that does not fit, or the
mnemonic whose operand is missing. -/
inductive Problem.IsAbout (source : Text) : Problem → Text → Prop where
  | lexical {e : LexError} {before w after : Text} (hcut : terminated source = before ++ w ++ after)
    (hskip : (Lexed.error e).Stands (Place.start.after before) w after) :
    IsAbout source (.lexical e) w
  | grammatical {e : ParseError} {t : Token}
    (hparse : Line.ofTokens (Lexed.tokens (Lexed.scan .start (terminated source))) = .error e)
    (hfound : e.found? = some t) : IsAbout source (.grammatical e) t.image
  | duplicateLabel {lines : List Line} {t : Token} (hreads : Reads source lines)
    (ht : t ∈ repeated (labels lines)) : IsAbout source (.duplicateLabel t) t.image
  | unknownLabel {lines : List Line} {s : Statement} {t : Token} (hreads : Reads source lines)
    (hs : s ∈ statements lines) (ho : s.operand = some (.label t)) :
    IsAbout source (.unknownLabel t) t.image
  | constantRange {lines : List Line} {s : Statement} {t : Token} (hreads : Reads source lines)
    (hs : s ∈ statements lines) (ho : s.operand = some (.integer t)) :
    IsAbout source (.constantRange t) t.image
  | unexpectedOperand {lines : List Line} {s : Statement} {o : Operand}
    (hreads : Reads source lines) (hs : s ∈ statements lines) (ho : s.operand = some o) :
    IsAbout source (.unexpectedOperand s.opcode o.token) o.token.image
  | missingOperand {lines : List Line} {s : Statement} (hreads : Reads source lines)
    (hs : s ∈ statements lines) (ho : s.operand = none) :
    IsAbout source (.missingOperand s.opcode s.mnemonic) s.mnemonic.image
  | noTarget {lines : List Line} {s : Statement} {o : Operand} (hreads : Reads source lines)
    (hs : s ∈ statements lines) (ho : s.operand = some o) (value : Int) :
    IsAbout source (.noTarget value o.token) o.token.image

/-- A problem of a file marks what it is about. -/
def Problem.MarksIn (source file : Text) (p : Problem) : Prop :=
  ∃ span word, (p.diagnostic file).span = some span ∧ span.file = file ∧ p.IsAbout source word
    ∧ span.Marks (terminated source) word

section

variable {source : Text}

/-- A problem whose stretch is that of a token of the text marks it. -/
theorem Problem.marksIn_of_token {p : Problem} {t : Token} {file : Text}
    (hspan : (p.diagnostic file).span = some (t.span file)) (habout : p.IsAbout source t.image)
    (ht : t ∈ Lexed.tokens (Lexed.scan .start (terminated source))) :
  p.MarksIn source file
  := ⟨t.span file, t.image, hspan, rfl, habout, Token.marks_span ht file⟩

theorem marksIn_lexical {e : LexError}
    (he : e ∈ Lexed.errors (Lexed.scan .start (terminated source))) (file : Text) :
  (Problem.lexical e).MarksIn source file
  := by
  obtain ⟨y, hy, hye⟩ := List.mem_filterMap.mp he
  obtain ⟨before, w, after, hcut, hstands⟩ := Lexed.exists_stands y hy
  have hmarks := hstands.marks hcut file
  cases y with
  | token t => cases hye
  | error e' =>
    cases hye
    refine ⟨_, w, rfl, rfl, .lexical hcut hstands, ?_⟩
    cases hstands
    exact hmarks

theorem marksIn_grammatical {e : ParseError}
    (h : Line.ofTokens (Lexed.tokens (Lexed.scan .start (terminated source))) = .error e)
    (file : Text) :
  (Problem.grammatical e).MarksIn source file
  := by
  obtain ⟨before, t, after, hfound, htokens, -, -⟩ := exists_blamed rfl h
  apply Problem.marksIn_of_token _ (.grammatical h hfound)
  · rw [htokens]
    simp
  · exact congrArg some (ParseError.span_of_found? hfound file)

theorem marksIn_of_hasProblem {lines : List Line} (hreads : Reads source lines) {s : Statement}
    (hs : s ∈ statements lines) {p : Problem} (hp : s.HasProblem p) (file : Text) :
  p.MarksIn source file
  := by
  have htokens := hreads.statement_subset hs
  have hoperand {o : Operand} (ho : s.operand = some o) : o.token ∈ s.tokens := by
    rw [Statement.tokens, ho]
    simp
  cases hp with
  | unknownLabel ho =>
    apply Problem.marksIn_of_token rfl (.unknownLabel hreads hs ho) (htokens (hoperand ho))
  | constantRange ho =>
    apply Problem.marksIn_of_token rfl (.constantRange hreads hs ho) (htokens (hoperand ho))
  | unexpectedOperand ho =>
    apply Problem.marksIn_of_token rfl (.unexpectedOperand hreads hs ho) (htokens (hoperand ho))
  | missingOperand ho =>
    apply Problem.marksIn_of_token rfl (.missingOperand hreads hs ho)
    apply htokens List.mem_cons_self
  | noTarget ho value =>
    apply Problem.marksIn_of_token rfl (.noTarget hreads hs ho value) (htokens (hoperand ho))

/-- Every problem of a text marks what it is about. -/
theorem marksIn_of_assemble {ps : List Problem} (h : assemble source = .error ps) {p : Problem}
    (hp : p ∈ ps) (file : Text) :
  p.MarksIn source file
  := by
  simp only [assemble] at h
  split at h
  · next hscans =>
    split at h
    · next lines hparses =>
      have hreads : Reads source lines := ⟨hscans, hparses⟩
      rcases cases_of_encodeLines h hp with ⟨t, ht, rfl⟩ | ⟨s, hs, hproblem⟩
      · apply Problem.marksIn_of_token rfl (.duplicateLabel hreads ht)
        apply hreads.labels_subset (repeated_subset _ ht)
      · apply marksIn_of_hasProblem hreads hs hproblem
    · next e hparse =>
      cases h
      rw [List.mem_singleton.mp hp]
      apply marksIn_grammatical hparse
  · cases h
    obtain ⟨e, he, rfl⟩ := List.mem_map.mp hp
    apply marksIn_lexical he

end

/-- Every diagnostic of a file is that of a problem, and it marks in the text of the file, a line
feed being added if there is none at its end, what the problem is about. -/
theorem diagnostics_mark {source file : Text} {ds : List Diagnostic}
    (h : assembleFile source file = .error ds) :
  ∀ d ∈ ds, ∃ p : Problem, d = p.diagnostic file ∧ p.MarksIn source file
  := by
  intro d hd
  rw [assembleFile] at h
  cases hproblems : assemble source with
  | ok code =>
    rw [hproblems] at h
    cases h
  | error ps =>
    rw [hproblems] at h
    cases h
    obtain ⟨p, hp, rfl⟩ := List.mem_map.mp hd
    exact ⟨p, rfl, marksIn_of_assemble hproblems hp file⟩

/-- Two units that are skipped together, on the second line of a text, behind a comment and a
tab. -/
theorem diagnostics_mark_skipped :
  ∃ d, assembleFile "halt # end\r\n\tpop @\r# end" "f" = .error [d]
    ∧ d.span = some ⟨"f", .ofNat 2, .ofNat 6, .ofNat 2, .ofNat 8⟩
    ∧ ∃ p : Problem, d = p.diagnostic "f"
      ∧ p.MarksIn "halt # end\r\n\tpop @\r# end" "f"
  := by
  have hfile : assembleFile "halt # end\r\n\tpop @\r# end" "f"
      = .error [(Problem.lexical ⟨CodeUnit.ofChar '@', ⟨17, 2, 6⟩, 2⟩).diagnostic "f"] := by
    decide +kernel
  exact ⟨_, hfile, by decide, diagnostics_mark hfile _ List.mem_cons_self⟩

end Assembly

end StackMachine
