import StackMachine.Proofs.Assembly.Stretches

/-!
# The token to blame

Every position within a line can be completed, so tokens that have been read without error are
always the beginning of lines, and a token that leads to an error is one with which no sequence of
lines goes on.  In a text that scans, whose tokens end with a line end, a parse error is always
about such a token.
-/

namespace StackMachine

namespace Assembly

/-! ### Positions within a line -/

/-- Tokens that complete a line of which so much is read. -/
def LineState.rest : LineState → List Token
  | named _ _ => [.bare .colon [CodeUnit.ofChar ':'], .bare .newline [Text.lineFeed]]
  | _ => [.bare .newline [Text.lineFeed]]

/-- From a position within a line tokens are read as lines. -/
def LineState.Accepts (s : LineState) (ts : List Token) : Prop :=
  ∃ lines, Line.ofTokensFrom s ts = .ok lines

/-- The position after what a token leads to: within the line, or at the beginning of the next. -/
def LineState.next : LineState ⊕ Line → LineState
  | .inl s => s
  | .inr _ => .start

theorem LineState.accepts_rest (s : LineState) :
  s.Accepts s.rest
  := by
  cases s <;> exact ⟨_, rfl⟩

theorem LineState.accepts_cons_iff {s : LineState} {t : Token} {ts : List Token} :
  s.Accepts (t :: ts) ↔ ∃ x, s.step t = .ok x ∧ (next x).Accepts ts
  := by
  constructor
  · rintro ⟨lines, hlines⟩
    rcases ofTokensFrom_cons_iff.mp hlines with ⟨s', hstep, h⟩ | ⟨line, rest, hstep, hrest, -⟩
    · exact ⟨_, hstep, lines, h⟩
    · exact ⟨_, hstep, rest, hrest⟩
  · rintro ⟨s' | line, hstep, lines, hlines⟩
    · exact ⟨lines, ofTokensFrom_cons_iff.mpr (.inl ⟨s', hstep, hlines⟩)⟩
    · exact ⟨line :: lines, ofTokensFrom_cons_iff.mpr (.inr ⟨line, lines, hstep, hlines, rfl⟩)⟩

/-- A token with which it cannot go on is the one that was found. -/
theorem LineState.found?_of_step {s : LineState} {t : Token} {e : ParseError}
    (h : s.step t = .error e) :
  e.found? = some t
  := by
  obtain ⟨kind, image, place⟩ := t
  cases s with
  | labels ls =>
    cases kind <;> cases h
    all_goals
      split <;> rfl
  | named | opened | complete =>
    cases kind <;> cases h
    all_goals rfl

/-! ### Reading -/

/-- The token that was found is the first with which the tokens do not begin lines. -/
structure Blames (s : LineState) (ts : List Token) (t : Token) (before after : List Token) : Prop
    where
  tokens : ts = before ++ t :: after
  goesOn : ∃ more, s.Accepts (before ++ more)
  stops : ∀ more, ¬ s.Accepts (before ++ t :: more)

/-- The token to blame among the rest of tokens is to blame among the tokens, if one is read. -/
theorem Blames.cons {s : LineState} {x : LineState ⊕ Line} {u t : Token}
    {ts before after : List Token} (hu : s.step u = .ok x)
    (h : Blames (LineState.next x) ts t before after) :
  Blames s (u :: ts) t (u :: before) after
  := by
  constructor
  · rw [h.tokens, List.cons_append]
  · obtain ⟨more, hmore⟩ := h.goesOn
    exact ⟨more, LineState.accepts_cons_iff.mpr ⟨x, hu, hmore⟩⟩
  · intro more hmore
    obtain ⟨y, hy, hrest⟩ := LineState.accepts_cons_iff.mp hmore
    cases hu.symm.trans hy
    apply h.stops more hrest

/-- A parse error is about the token that is to blame, unless the tokens end within a line. -/
theorem exists_blames {s : LineState} {ts : List Token} {e : ParseError}
    (h : Line.ofTokensFrom s ts = .error e) (he : e ≠ .unfinished) :
  ∃ before t after, e.found? = some t ∧ Blames s ts t before after
  := by
  induction ts generalizing s with
  | nil =>
    rw [Line.ofTokensFrom] at h
    split at h
    · cases h
    · cases h
      cases he rfl
  | cons u ts ih =>
    rw [Line.ofTokensFrom] at h
    split at h
    · next e' hstep =>
      cases h
      refine ⟨[], u, ts, LineState.found?_of_step hstep, rfl, ⟨s.rest, s.accepts_rest⟩, ?_⟩
      intro more hmore
      obtain ⟨x, hx, -⟩ := LineState.accepts_cons_iff.mp hmore
      cases hstep.symm.trans hx
    · next hstep =>
      obtain ⟨before, t, after, hfound, hblames⟩ := ih h
      exact ⟨u :: before, t, after, hfound, hblames.cons hstep⟩
    · next hstep =>
      obtain ⟨before, t, after, hfound, hblames⟩ := ih (map_eq_error h)
      exact ⟨u :: before, t, after, hfound, hblames.cons hstep⟩

/-- Tokens that end with a line end do not end within a line. -/
theorem ofTokensFrom_ne_unfinished {s : LineState} {ts : List Token} {t : Token}
    (ht : t.endsLine = true) :
  Line.ofTokensFrom s (ts ++ [t]) ≠ .error .unfinished
  := by
  induction ts generalizing s with
  | nil =>
    intro h
    rw [List.nil_append, Line.ofTokensFrom] at h
    split at h
    · next e hstep =>
      cases h
      cases LineState.found?_of_step hstep
    · next hstep => cases LineState.step_endsLine ht hstep
    · cases h
  | cons u ts ih =>
    intro h
    rw [List.cons_append, Line.ofTokensFrom] at h
    split at h
    · next e hstep =>
      cases h
      cases LineState.found?_of_step hstep
    · apply ih h
    · apply ih (map_eq_error h)

/-! ### Texts -/

section

variable {source : Text} {ts : List Token}
  (htokens : Lexed.tokens (Lexed.scan .start (terminated source)) = ts)

include htokens in
/-- A text that scans, whose tokens are cut into lines, is what the lines encode. -/
theorem assemble_of_derives (hscan : Lexed.errors (Lexed.scan .start (terminated source)) = [])
    {parts : List (Line × List Token)} (h : Derives ts parts) :
  assemble source = encodeLines (parts.map Prod.fst)
  := by
  apply Reads.assemble
  constructor
  · apply hscan
  · rw [htokens, h.ofTokens]

include htokens in
/-- The lines of a text are its lines between line feeds. -/
theorem length_of_derives {parts : List (Line × List Token)} (h : Derives ts parts) :
  parts.length = (Text.lines (terminated source)).length
  := by
  rw [h.length_eq, ← htokens, Lexed.countP_endsLine,
    Text.length_lines (.inr (getLast?_terminated source))]

include htokens in
/-- The tokens of a line stand on it. -/
theorem line_of_derives {parts : List (Line × List Token)} (h : Derives ts parts) {k : Nat}
    {part : Line × List Token} (hk : parts[k]? = some part) :
  ∀ t ∈ part.2, t.place.line = k + 1
  := by
  intro t ht
  obtain ⟨before, after, hcut, hcount⟩ := h.exists_before hk ht
  rw [Lexed.line_of_tokens before (htokens.trans hcut), hcount]
  apply Nat.add_comm

include htokens in
/-- Tokens of a text end with a line end, so a parse error is about the first token with which no
sequence of lines goes on. -/
theorem exists_blamed {e : ParseError} (h : Line.ofTokens ts = .error e) :
  ∃ before t after, e.found? = some t ∧ ts = before ++ t :: after ∧ Viable before
    ∧ ¬ Viable (before ++ [t])
  := by
  obtain ⟨us, n, hus, hn⟩ := Lexed.exists_endsLine (p := .start) (getLast?_terminated source)
  have hunfinished : e ≠ .unfinished := by
    rintro rfl
    rw [← htokens, hus] at h
    apply ofTokensFrom_ne_unfinished hn h
  obtain ⟨before, t, after, hfound, hblames⟩ := exists_blames h hunfinished
  refine ⟨before, t, after, hfound, hblames.tokens, ?_, ?_⟩
  · obtain ⟨more, lines, hlines⟩ := hblames.goesOn
    obtain ⟨parts, hparts, -⟩ := ofTokens_eq_ok_iff.mp hlines
    exact ⟨more, parts, hparts⟩
  · rintro ⟨more, parts, hparts⟩
    rw [List.append_assoc, List.singleton_append] at hparts
    apply hblames.stops more ⟨_, hparts.ofTokens⟩

end

/-- A text that scans is not reported as no sequence of lines if and only if its tokens are cut into
lines.  There is one way only to do so, with a line for each line of the text, on which its tokens
stand, and the text is what these lines encode.  Otherwise one parse error is reported, and nothing
else, about the first token up to which the tokens are not the beginning of any lines. -/
theorem parses_iff_derives {source : Text} {ts : List Token}
    (hscan : Lexed.errors (Lexed.scan .start (terminated source)) = [])
    (htokens : Lexed.tokens (Lexed.scan .start (terminated source)) = ts) (file : Text) :
  ((∀ ds, assembleFile source file = .error ds → ∀ d ∈ ds, d.code ≠ Text.ofString "E_PARSE")
      ↔ ∃ parts, Derives ts parts)
    ∧ (∀ parts, Derives ts parts →
      (∀ parts', Derives ts parts' → parts' = parts)
        ∧ parts.length = (Text.lines (terminated source)).length
        ∧ (∀ k part, parts[k]? = some part → ∀ t ∈ part.2, t.place.line = k + 1)
        ∧ assemble source = encodeLines (parts.map Prod.fst))
    ∧ ((¬ ∃ parts, Derives ts parts) →
      ∃ before t after d, ts = before ++ t :: after ∧ Viable before ∧ ¬ Viable (before ++ [t])
        ∧ assembleFile source file = .error [d] ∧ d.code = Text.ofString "E_PARSE"
        ∧ d.span = some (t.span file))
  := by
  have hnot (hnone : ¬ ∃ parts, Derives ts parts) :
      ∃ e, Line.ofTokens ts = .error e
        ∧ assembleFile source file = .error [(Problem.grammatical e).diagnostic file] := by
    cases hread : Line.ofTokens ts with
    | ok lines =>
      obtain ⟨parts, hparts, -⟩ := ofTokens_eq_ok_iff.mp hread
      cases hnone ⟨parts, hparts⟩
    | error e =>
      use e, rfl
      rw [assembleFile, assemble]
      simp only [hscan, htokens, hread]
      rfl
  refine ⟨⟨?_, ?_⟩, ?_, ?_⟩
  · intro hcodes
    by_contra hnone
    obtain ⟨e, -, hfile⟩ := hnot hnone
    apply hcodes _ hfile _ List.mem_cons_self
    rfl
  · rintro ⟨parts, hparts⟩ ds hds d hd
    rw [assembleFile, assemble_of_derives htokens hscan hparts] at hds
    cases hencode : encodeLines (parts.map Prod.fst) with
    | ok code =>
      rw [hencode] at hds
      cases hds
    | error ps =>
      rw [hencode] at hds
      cases hds
      obtain ⟨p, hp, rfl⟩ := List.mem_map.mp hd
      apply code_ne_of_encodeLines hencode hp
  · intro parts hparts
    exact ⟨fun parts' => hparts.unique, length_of_derives htokens hparts,
      fun k part => line_of_derives htokens hparts, assemble_of_derives htokens hscan hparts⟩
  · intro hnone
    obtain ⟨e, hread, hfile⟩ := hnot hnone
    obtain ⟨before, t, after, hfound, hts, hviable, hstops⟩ := exists_blamed htokens hread
    refine ⟨before, t, after, _, hts, hviable, hstops, hfile, rfl, ?_⟩
    exact congrArg some (ParseError.span_of_found? hfound file)

/-- A text whose second line begins with a colon, which is to blame. -/
theorem parses_iff_derives_colon :
  ∃ ts before t after d, Lexed.tokens (Lexed.scan .start (terminated "a: halt\n: pop")) = ts
    ∧ ts = before ++ t :: after ∧ Viable before ∧ ¬ Viable (before ++ [t])
    ∧ assembleFile "a: halt\n: pop" "f" = .error [d]
    ∧ d.span = some ⟨"f", .ofNat 2, .ofNat 1, .ofNat 2, .ofNat 2⟩
  := by
  have hscan : Lexed.errors (Lexed.scan .start (terminated "a: halt\n: pop")) = [] := by
    decide +kernel
  have hread : Line.ofTokens (Lexed.tokens (Lexed.scan .start (terminated "a: halt\n: pop")))
      = .error (.redundant ⟨.colon, ":", ⟨8, 2, 1⟩⟩) := by
    decide +kernel
  obtain ⟨-, -, hblame⟩ := parses_iff_derives hscan rfl "f"
  obtain ⟨before, t, after, d, hts, hviable, hstops, hfile, -, -⟩ := hblame (by
    rintro ⟨parts, hparts⟩
    cases hread.symm.trans hparts.ofTokens)
  refine ⟨_, before, t, after, d, rfl, hts, hviable, hstops, hfile, ?_⟩
  rw [assembleFile, assemble] at hfile
  simp only [hscan, hread] at hfile
  cases hfile
  decide +kernel

end Assembly

end StackMachine
