import StackMachine.Proofs.Assembly.Layout

/-!
# Line ends that change nothing

How a line end is written does not matter to the lines of tokens.  An empty line, or a line end
behind the first label of a line, adds a line without an instruction, so that every label names the
same number of instructions as before.
-/

namespace StackMachine

namespace Assembly

/-! ### How line ends are written -/

/-- A token, where all line ends are written alike. -/
def Token.normal (t : Token) : Token :=
  if t.kind = .newline then { t with image := [Text.lineFeed] } else t

theorem Token.erase_normal (t : Token) :
  t.normal.erase = t.plain
  := by
  rw [normal, plain, TokenKind.plain]
  split
  · next hkind => rw [Token.erase, Token.bare, hkind]
  · rfl

theorem LineState.step_normal {s : LineState} {t : Token} {x : LineState ⊕ Line} :
  s.step t.normal = .ok x ↔ s.step t = .ok x
  := by
  rw [Token.normal]
  split
  · next hkind =>
    cases s with
    | labels | opened | complete => simp [step, hkind]
    | named => simp [step, hkind]
  · exact Iff.rfl

theorem ofTokensFrom_normal {s : LineState} {ts : List Token} {lines : List Line} :
  Line.ofTokensFrom s (ts.map Token.normal) = .ok lines ↔ Line.ofTokensFrom s ts = .ok lines
  := by
  induction ts generalizing s lines with
  | nil => exact Iff.rfl
  | cons t ts ih =>
    rw [List.map_cons, ofTokensFrom_cons_iff, ofTokensFrom_cons_iff]
    simp only [LineState.step_normal, Line.ofTokens, ih]

theorem assembleTokens_eq_ok_iff {ts : List Token} {code : Code} :
  assembleTokens ts = .ok code
    ↔ ∃ lines, Line.ofTokens ts = .ok lines ∧ encodeLines lines = .ok code
  := by
  rw [assembleTokens]
  cases Line.ofTokens ts <;> simp

/-- Tokens are assembled wherever they stand, and however line ends are written. -/
theorem assembleTokens_plain {ts : List Token} {code : Code} :
  assembleTokens (ts.map Token.plain) = .ok code ↔ assembleTokens ts = .ok code
  := by
  have hplain : ts.map Token.plain = (ts.map Token.normal).map Token.erase := by
    rw [List.map_map]
    congr 1
    funext t
    exact t.erase_normal.symm
  have hnormal : assembleTokens (ts.map Token.normal) = .ok code
      ↔ assembleTokens ts = .ok code := by
    rw [assembleTokens_eq_ok_iff, assembleTokens_eq_ok_iff]
    simp only [Line.ofTokens, ofTokensFrom_normal]
  rw [hplain, assembleTokens_erase, ← hnormal]
  cases assembleTokens (ts.map Token.normal) <;> simp [Except.mapError]

/-! ### Lines one after another -/

/-- Tokens are cut where a line begins. -/
theorem ofTokensFrom_newline_iff {s : LineState} {us ts : List Token} {lines : List Line} :
  Line.ofTokensFrom s (us ++ newline :: ts) = .ok lines
    ↔ ∃ l l', lines = l ++ l' ∧ Line.ofTokensFrom s (us ++ [newline]) = .ok l
      ∧ Line.ofTokens ts = .ok l'
  := by
  have hends {s s' : LineState} : s.step newline ≠ .ok (.inl s') := LineState.step_endsLine rfl
  induction us generalizing s lines with
  | nil =>
    constructor
    · intro h
      rcases ofTokensFrom_cons_iff.mp h with ⟨s', hstep, -⟩ | ⟨line, rest, hstep, hrest, rfl⟩
      · cases hends hstep
      · exact ⟨[line], rest, rfl,
          ofTokensFrom_cons_iff.mpr (.inr ⟨line, [], hstep, rfl, rfl⟩), hrest⟩
    · rintro ⟨l, l', rfl, hl, hl'⟩
      rcases ofTokensFrom_cons_iff.mp hl with ⟨s', hstep, -⟩ | ⟨line, rest, hstep, hrest, rfl⟩
      · cases hends hstep
      · cases hrest
        exact ofTokensFrom_cons_iff.mpr (.inr ⟨line, l', hstep, hl', rfl⟩)
  | cons u us ih =>
    constructor
    · intro h
      rcases ofTokensFrom_cons_iff.mp h with ⟨s', hstep, h⟩ | ⟨line, rest, hstep, hrest, rfl⟩
      · obtain ⟨l, l', rfl, hl, hl'⟩ := ih.mp h
        exact ⟨l, l', rfl, ofTokensFrom_cons_iff.mpr (.inl ⟨s', hstep, hl⟩), hl'⟩
      · obtain ⟨l, l', rfl, hl, hl'⟩ := ih.mp hrest
        exact ⟨line :: l, l', rfl,
          ofTokensFrom_cons_iff.mpr (.inr ⟨line, l, hstep, hl, rfl⟩), hl'⟩
    · rintro ⟨l, l', rfl, hl, hl'⟩
      rcases ofTokensFrom_cons_iff.mp hl with ⟨s', hstep, h⟩ | ⟨line, rest, hstep, hrest, rfl⟩
      · exact ofTokensFrom_cons_iff.mpr (.inl ⟨s', hstep, ih.mpr ⟨l, l', rfl, h, hl'⟩⟩)
      · exact ofTokensFrom_cons_iff.mpr
          (.inr ⟨line, rest ++ l', hstep, ih.mpr ⟨rest, l', rfl, hrest, hl'⟩, rfl⟩)

theorem ofTokens_append_iff {ts ts' : List Token} (hts : EndsLine ts) {lines : List Line} :
  Line.ofTokens (ts ++ ts') = .ok lines
    ↔ ∃ l l', lines = l ++ l' ∧ Line.ofTokens ts = .ok l ∧ Line.ofTokens ts' = .ok l'
  := by
  rcases hts with rfl | ⟨us, rfl⟩
  · constructor
    · intro h
      exact ⟨[], lines, rfl, rfl, h⟩
    · rintro ⟨l, l', rfl, ⟨⟩, h⟩
      exact h
  · rw [List.append_assoc]
    exact ofTokensFrom_newline_iff

theorem definitions_append (index : Nat) (l l' : List Line) :
  definitions index (l ++ l')
    = definitions index l ++ definitions (index + (statements l).length) l'
  := by
  induction l generalizing index with
  | nil => rfl
  | cons line l ih =>
    have hindex : (if line.statement.isSome then index + 1 else index) + (statements l).length
        = index + (statements (line :: l)).length := by
      rw [statements, statements, List.filterMap_cons]
      cases line.statement with
      | none => rfl
      | some s =>
        simp only [Option.isSome_some, if_true, List.length_cons]
        omega
    rw [List.cons_append, definitions, definitions, ih, List.append_assoc, hindex]

/-- Lines are encoded as their labels and their instructions tell. -/
theorem encodeLines_congr {l l' : List Line} (hdefinitions : definitions 0 l = definitions 0 l')
    (hstatements : statements l = statements l') :
  encodeLines l = encodeLines l'
  := by
  have hall : encodeAll l = encodeAll l' := by
    rw [encodeAll, encodeAll, hdefinitions]
    exact congrArg (List.map _) hstatements
  rw [encodeLines, encodeLines, hdefinitions, hall]

/-- Lines that define the same labels and bear the same instructions, behind other lines. -/
theorem encodeLines_append_congr (l : List Line) {l' l'' : List Line}
    (hdefinitions : ∀ index, definitions index l' = definitions index l'')
    (hstatements : statements l' = statements l'') :
  encodeLines (l ++ l') = encodeLines (l ++ l'')
  := by
  apply encodeLines_congr
  · rw [definitions_append, definitions_append, hdefinitions]
  · rw [statements, statements, List.filterMap_append, List.filterMap_append]
    exact congrArg (_ ++ ·) hstatements

/-- Tokens at the beginning of a line may be exchanged for others that are read as lines with the same
labels and the same instructions. -/
theorem assembleTokens_of_append {ts us us' : List Token} {code : Code} (hts : EndsLine ts)
    (h : assembleTokens (ts ++ us) = .ok code)
    (hlines : ∀ l, Line.ofTokens us = .ok l → ∃ l', Line.ofTokens us' = .ok l'
      ∧ (∀ index, definitions index l = definitions index l') ∧ statements l = statements l') :
  assembleTokens (ts ++ us') = .ok code
  := by
  obtain ⟨lines, hread, hcode⟩ := assembleTokens_eq_ok_iff.mp h
  obtain ⟨l, l', rfl, hl, hl'⟩ := (ofTokens_append_iff hts).mp hread
  obtain ⟨l'', hl'', hdefinitions, hstatements⟩ := hlines l' hl'
  apply assembleTokens_eq_ok_iff.mpr
  use l ++ l''
  constructor
  · exact (ofTokens_append_iff hts).mpr ⟨l, l'', rfl, hl, hl''⟩
  · rw [← encodeLines_append_congr l hdefinitions hstatements, hcode]

/-! ### Lines that change nothing -/

theorem ofTokens_newline (ts : List Token) :
  Line.ofTokens (newline :: ts) = (Line.ofTokens ts).map (⟨[], none⟩ :: ·)
  := rfl

/-- An empty line may be inserted where a line begins. -/
theorem assembleTokens_insert {ts us : List Token} {code : Code} (hts : EndsLine ts)
    (h : assembleTokens (ts ++ us) = .ok code) :
  assembleTokens (ts ++ newline :: us) = .ok code
  := by
  apply assembleTokens_of_append hts h
  intro l hl
  refine ⟨⟨[], none⟩ :: l, ?_, fun _ => rfl, rfl⟩
  rw [ofTokens_newline, hl]
  rfl

/-- An empty line may be deleted. -/
theorem assembleTokens_delete {ts us : List Token} {code : Code} (hts : EndsLine ts)
    (h : assembleTokens (ts ++ newline :: us) = .ok code) :
  assembleTokens (ts ++ us) = .ok code
  := by
  apply assembleTokens_of_append hts h
  intro l hl
  obtain ⟨rest, hrest, rfl⟩ := Instruction.map_eq_ok hl
  exact ⟨rest, hrest, fun _ => rfl, rfl⟩

/-! ### Labels on a line of their own -/

/-- A line with another label before its own. -/
def Line.withLabel (name : Token) (line : Line) : Line := ⟨name :: line.labels, line.statement⟩

/-- A position within a line with another label before those of the line. -/
def LineState.withLabel (name : Token) : LineState → LineState
  | labels ls => labels (name :: ls)
  | named ls t => named (name :: ls) t
  | opened ls opcode m => opened (name :: ls) opcode m
  | complete ls statement => complete (name :: ls) statement

theorem LineState.step_withLabel {s : LineState} {name t : Token} {x : LineState ⊕ Line}
    (h : (s.withLabel name).step t = .ok x) :
  ∃ y, s.step t = .ok y ∧ x = y.map (withLabel name) (Line.withLabel name)
  := by
  obtain ⟨kind, image, place⟩ := t
  cases s <;> cases kind <;> cases h <;> exact ⟨_, rfl, rfl⟩

/-- The first label of the line that is being read does not matter to what else is read. -/
theorem exists_withLabel {s : LineState} {name : Token} {ts : List Token} {lines : List Line}
    (h : Line.ofTokensFrom (s.withLabel name) ts = .ok lines) :
  ∃ line rest, Line.ofTokensFrom s ts = .ok (line :: rest) ∧ lines = line.withLabel name :: rest
  := by
  induction ts generalizing s lines with
  | nil =>
    rw [Line.ofTokensFrom] at h
    split at h
    · next hstart => cases s <;> cases hstart
    · cases h
  | cons t ts ih =>
    rcases ofTokensFrom_cons_iff.mp h with ⟨s', hstep, hrest⟩ | ⟨line, rest, hstep, hrest, rfl⟩
    · obtain ⟨s'' | line, hs, hmap⟩ := LineState.step_withLabel hstep
      · cases hmap
        obtain ⟨line, rest, hlines, rfl⟩ := ih hrest
        exact ⟨line, rest, ofTokensFrom_cons_iff.mpr (.inl ⟨s'', hs, hlines⟩), rfl⟩
      · cases hmap
    · obtain ⟨s'' | line', hs, hmap⟩ := LineState.step_withLabel hstep
      · cases hmap
      · cases hmap
        exact ⟨line', rest, ofTokensFrom_cons_iff.mpr (.inr ⟨line', rest, hs, hrest, rfl⟩), rfl⟩

/-- A line end may be put behind the first label of a line. -/
theorem assembleTokens_label {ts us : List Token} {name colon : Token} {code : Code}
    (hts : EndsLine ts) (hname : name.kind = .identifier) (hcolon : colon.kind = .colon)
    (h : assembleTokens (ts ++ name :: colon :: us) = .ok code) :
  assembleTokens (ts ++ name :: colon :: newline :: us) = .ok code
  := by
  have hlabel (us : List Token) : Line.ofTokens (name :: colon :: us)
      = Line.ofTokensFrom (LineState.start.withLabel name) us := by
    simp [Line.ofTokens, Line.ofTokensFrom, LineState.start, LineState.step, hname, hcolon,
      LineState.withLabel]
  apply assembleTokens_of_append hts h
  intro l hl
  rw [hlabel] at hl
  obtain ⟨line, rest, hrest, rfl⟩ := exists_withLabel hl
  refine ⟨⟨[name], none⟩ :: line :: rest, ?_, fun _ => rfl, rfl⟩
  rw [hlabel]
  change Except.map _ (Line.ofTokensFrom .start us) = _
  rw [hrest]
  rfl

end Assembly

end StackMachine
