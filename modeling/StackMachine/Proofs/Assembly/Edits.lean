import Mathlib.Logic.Relation
import StackMachine.Proofs.Assembly.LineEnds

/-!
# Edits of the layout

A source can be laid out in other ways: with carriage returns before its line feeds, with more or
fewer blanks and comments, with other empty lines, and with labels on lines of their own.  Each such
edit keeps the code that the source is assembled to, and so does every sequence of edits.
-/

namespace StackMachine

namespace Assembly

/-- No token of a source stands across an offset. -/
def StandsBetween (source : Text) (n : Nat) : Prop :=
  ∀ t ∈ Lexed.tokens (Lexed.scan .start (terminated source)),
    t.place.offset + t.image.length ≤ n ∨ n ≤ t.place.offset

/-- A blank, a colon, or a unit of the end of a line. -/
def isSeparator (u : CodeUnit) : Bool :=
  Lexeme.isBlank u || Lexeme.isLineEnd u || u == CodeUnit.ofChar ':'

/-- A change of the layout of a source at one place. -/
inductive Edit : Text → Text → Prop where
  /-- A carriage return is put before a line feed that has none before it. -/
  | carriageReturn {a b : Text} (ha : a.getLast? ≠ some Text.carriageReturn) :
    Edit (a ++ Text.lineFeed :: b) (a ++ Text.carriageReturn :: Text.lineFeed :: b)
  /-- Blanks are inserted between tokens. -/
  | insertBlanks {a w b : Text} (hw : IsBlanks w) (hplace : StandsBetween (a ++ b) a.length) :
    Edit (a ++ b) (a ++ (w ++ b))
  /-- Blanks are removed next to a colon, a line end or another blank, or where the text begins or
  ends. -/
  | removeBlanks {a w b : Text} (hw : IsBlanks w)
    (hnext : a.getLast?.all isSeparator = true ∨ b.head?.all isSeparator = true) :
    Edit (a ++ (w ++ b)) (a ++ b)
  /-- A comment is appended to a line. -/
  | appendComment {a v b : Text} (hv : IsComment v) (hplace : StandsBetween (a ++ b) a.length)
    (hb : b.head?.all Lexeme.isLineEnd = true) : Edit (a ++ b) (a ++ (v ++ b))
  /-- A comment is deleted. -/
  | deleteComment {a v b : Text} (hv : IsComment v) (hb : b.head?.all Lexeme.isLineEnd = true) :
    Edit (a ++ (v ++ b)) (a ++ b)
  /-- A line with blanks and at most a comment is inserted. -/
  | insertLine {a line b : Text} (ha : Text.EndsLine a) (hline : IsEmptyLine line) :
    Edit (a ++ b) (a ++ (line ++ b))
  /-- A line with blanks and at most a comment is deleted. -/
  | deleteLine {a line b : Text} (ha : Text.EndsLine a) (hline : IsEmptyLine line) :
    Edit (a ++ (line ++ b)) (a ++ b)
  /-- The first label of a line is left on a line of its own, above the rest of the line. -/
  | moveLabel {a label name e b : Text} (ha : Text.EndsLine a) (hlabel : IsLabel label name)
    (he : IsLineEnd e) : Edit (a ++ (label ++ b)) (a ++ (label ++ (e ++ b)))
  /-- A line feed is put at the end of the text. -/
  | addLineFeed {a : Text} : Edit a (a ++ [Text.lineFeed])
  /-- The line feed at the end of the text is removed. -/
  | removeLineFeed {a : Text} : Edit (a ++ [Text.lineFeed]) a

/-! ### Sources with a line feed behind -/

theorem endsLine_terminated (source : Text) :
  Text.EndsLine (terminated source)
  := .inr (getLast?_terminated source)

/-- A source is assembled as its tokens are. -/
theorem assemble_iff_lexes {source : Text} {code : Code} :
  assemble source = .ok code
    ↔ ∃ ts, Lexes (terminated source) false ts ∧ assembleTokens ts = .ok code
  := by
  have hassemble (herrors : Lexed.errors (Lexed.scan .start (terminated source)) = []) :
      assemble source
        = assembleTokens (Lexed.tokens (Lexed.scan .start (terminated source))) := by
    simp only [assemble, herrors]
    rfl
  constructor
  · intro h
    obtain ⟨lines, hreads, -⟩ := exists_reads h
    obtain ⟨c, hlexes⟩ := exists_lexes hreads.scans
    cases hlexes.closed (endsLine_terminated source)
    refine ⟨_, hlexes, ?_⟩
    rw [assembleTokens_plain, ← hassemble hreads.scans, h]
  · rintro ⟨ts, hlexes, hcode⟩
    obtain ⟨herrors, rfl⟩ := hlexes.scan .start
    rw [hassemble herrors, ← assembleTokens_plain, hcode]

theorem lexes_lineFeed_iff {c : Bool} {ts : List Token} :
  Lexes [Text.lineFeed] c ts ↔ c = false ∧ ts = [newline]
  := by
  rw [← List.append_nil [Text.lineFeed], lexes_lineEnd_iff (.inl rfl)]
  constructor
  · rintro ⟨ts', rfl, h⟩
    cases h
    exact ⟨rfl, rfl⟩
  · rintro ⟨rfl, rfl⟩
    exact ⟨[], rfl, .nil⟩

/-- A line feed that is put behind a source, even if it has one, does not matter. -/
theorem assemble_iff {source : Text} {code : Code} :
  assemble source = .ok code
    ↔ ∃ ts, Lexes (source ++ [Text.lineFeed]) false ts ∧ assembleTokens ts = .ok code
  := by
  rw [assemble_iff_lexes, terminated]
  split
  · next hends =>
    have hsource : Text.EndsLine source := .inr hends
    constructor
    · rintro ⟨ts, hlexes, hcode⟩
      use ts ++ [newline]
      constructor
      · exact (lexes_append_iff hsource).mpr
          ⟨ts, [newline], rfl, hlexes, lexes_lineFeed_iff.mpr ⟨rfl, rfl⟩⟩
      · apply assembleTokens_insert (hlexes.endsLine hsource)
        rwa [List.append_nil]
    · rintro ⟨ts, hlexes, hcode⟩
      obtain ⟨ts', ts'', rfl, hbefore, hfeed⟩ := (lexes_append_iff hsource).mp hlexes
      cases (lexes_lineFeed_iff.mp hfeed).2
      use ts', hbefore
      rw [← List.append_nil ts']
      exact assembleTokens_delete (hbefore.endsLine hsource) hcode
  · exact Iff.rfl

/-- A place between tokens of a source is one between tokens of the source with a line feed
behind. -/
theorem StandsBetween.between {a b : Text} {ts : List Token} (h : StandsBetween (a ++ b) a.length)
    (hlexes : Lexes (terminated (a ++ b)) false ts) :
  Between .start a (b ++ [Text.lineFeed])
  := by
  intro t ht
  rw [← List.append_assoc] at ht
  rw [Place.start, Nat.zero_add]
  rw [StandsBetween, terminated] at h
  rw [terminated] at hlexes
  split at h
  · next hends =>
    rw [if_pos hends] at hlexes
    have hapart : Apart (a ++ b) [Text.lineFeed] := .inr rfl
    rw [hlexes.scan_append rfl hapart, Lexed.scan_lineFeed, Lexed.tokens,
      List.filterMap_append] at ht
    rcases List.mem_append.mp ht with ht | ht
    · exact h t ht
    · -- The line feed behind the source is the only token that is not one of the source.
      right
      cases List.mem_singleton.mp ht
      rw [Place.offset_after, List.length_append]
      omega
  · exact h t ht

/-! ### One edit -/

section

variable {a b : Text} {ts : List Token}

theorem isLineEnd_head {b : Text} (hb : b.head?.all Lexeme.isLineEnd = true) :
  ∃ u b', b ++ [Text.lineFeed] = u :: b' ∧ Lexeme.isLineEnd u = true
  := by
  cases b with
  | nil => exact ⟨Text.lineFeed, [], rfl, rfl⟩
  | cons u b => exact ⟨u, b ++ [Text.lineFeed], rfl, hb⟩

/-- Nothing that continues a word is next to a separator. -/
theorem apart_of_isSeparator
    (hnext : a.getLast?.all isSeparator = true ∨ b.head?.all isSeparator = true) :
  Apart a (b ++ [Text.lineFeed])
  := by
  have hpart {u : CodeUnit} (hu : isSeparator u = true) : u.isWordPart = false := by
    rw [isSeparator, Bool.or_eq_true, Bool.or_eq_true] at hu
    rcases hu with hu | hu
    · exact not_isWordPart hu
    · rw [eq_of_beq hu]
      rfl
  rcases hnext with ha | hb
  · left
    cases hlast : a.getLast? with
    | none => rfl
    | some u =>
      rw [hlast] at ha
      exact hpart ha
  · right
    cases b with
    | nil => rfl
    | cons u b => exact hpart hb

end

/-- An edit of a source that is assembled keeps its code. -/
theorem Edit.assemble {source source' : Text} {code : Code} (h : Edit source source')
    (hcode : assemble source = .ok code) :
  assemble source' = .ok code
  := by
  obtain ⟨ts₀, hterminated, -⟩ := assemble_iff_lexes.mp hcode
  obtain ⟨ts, hlexes, hts⟩ := assemble_iff.mp hcode
  apply assemble_iff.mpr
  cases h with
  | carriageReturn ha =>
    rw [List.append_assoc] at hlexes ⊢
    exact ⟨ts, hlexes.carriageReturn ha, hts⟩
  | insertBlanks hw hplace =>
    simp only [List.append_assoc] at hlexes ⊢
    exact ⟨ts, hlexes.insertBlanks (hplace.between hterminated) hw, hts⟩
  | removeBlanks hw hnext =>
    simp only [List.append_assoc] at hlexes ⊢
    exact ⟨ts, hlexes.removeBlanks hw (apart_of_isSeparator hnext), hts⟩
  | appendComment hv hplace hb =>
    have hbetween := hplace.between hterminated
    obtain ⟨u, b', hub, hu⟩ := isLineEnd_head hb
    simp only [List.append_assoc, hub] at hlexes hbetween ⊢
    exact ⟨ts, hlexes.appendComment hbetween hv hu, hts⟩
  | deleteComment hv hb =>
    obtain ⟨u, b', hub, hu⟩ := isLineEnd_head hb
    simp only [List.append_assoc, hub] at hlexes ⊢
    exact ⟨ts, hlexes.deleteComment hv hu, hts⟩
  | insertLine ha hline =>
    simp only [List.append_assoc] at hlexes ⊢
    obtain ⟨us, us', rfl, hbefore, hrest⟩ := (lexes_append_iff ha).mp hlexes
    refine ⟨us ++ newline :: us', ?_, assembleTokens_insert (hbefore.endsLine ha) hts⟩
    exact (lexes_append_iff ha).mpr
      ⟨us, _, rfl, hbefore, (lexes_emptyLine_iff hline).mpr ⟨us', rfl, hrest⟩⟩
  | deleteLine ha hline =>
    simp only [List.append_assoc] at hlexes ⊢
    obtain ⟨us, _, rfl, hbefore, hafter⟩ := (lexes_append_iff ha).mp hlexes
    obtain ⟨us', rfl, hrest⟩ := (lexes_emptyLine_iff hline).mp hafter
    refine ⟨us ++ us', ?_, assembleTokens_delete (hbefore.endsLine ha) hts⟩
    exact (lexes_append_iff ha).mpr ⟨us, us', rfl, hbefore, hrest⟩
  | moveLabel ha hlabel he =>
    simp only [List.append_assoc] at hlexes ⊢
    obtain ⟨us, _, rfl, hbefore, hafter⟩ := (lexes_append_iff ha).mp hlexes
    obtain ⟨us', rfl, hrest⟩ := (lexes_label_iff hlabel).mp hafter
    refine ⟨_, ?_, assembleTokens_label (hbefore.endsLine ha) rfl rfl hts⟩
    have hend := (lexes_lineEnd_iff he).mpr ⟨us', rfl, hrest⟩
    exact (lexes_append_iff ha).mpr
      ⟨us, _, rfl, hbefore, (lexes_label_iff hlabel).mpr ⟨_, rfl, hend⟩⟩
  | addLineFeed =>
    have ha := Text.endsLine_concat source
    refine ⟨ts ++ [newline], ?_, assembleTokens_insert (hlexes.endsLine ha) ?_⟩
    · exact (lexes_append_iff ha).mpr
        ⟨ts, [newline], rfl, hlexes, lexes_lineFeed_iff.mpr ⟨rfl, rfl⟩⟩
    · rwa [List.append_nil]
  | removeLineFeed =>
    have ha := Text.endsLine_concat source'
    obtain ⟨us, _, rfl, hbefore, hfeed⟩ := (lexes_append_iff ha).mp hlexes
    cases (lexes_lineFeed_iff.mp hfeed).2
    use us, hbefore
    rw [← List.append_nil us]
    exact assembleTokens_delete (hbefore.endsLine ha) hts

/-! ### Sequences of edits -/

/-- Layout does not matter: whatever edits are made one after another to a source that is assembled,
it is assembled to the same code, however its lines end. -/
theorem assemble_of_edits {source source' : Text} {code : Code} (hcode : assemble source = .ok code)
    (hedits : Relation.ReflTransGen Edit source source') :
  assemble source' = .ok code
  := by
  induction hedits with
  | refl => exact hcode
  | tail _ hedit ih => exact hedit.assemble ih

/-- A label is moved to a line of its own, a line with a comment is inserted below it, a comment is
appended to the last line, and a carriage return is put before the line feed of that. -/
theorem assemble_of_edits_label :
  assemble "L:\n# again\n jump L# end\r\n" = .ok [.jump 0]
  := by
  have hcode : assemble "L: jump L\n" = .ok [.jump 0] := by decide +kernel
  have hlabel : IsLabel "L:" "L" := ⟨[], [], by decide, by decide, by decide, by decide, by decide⟩
  have hline : IsEmptyLine "# again\n" :=
    ⟨[], "# again", "\n", by decide, by decide, .inr (by decide), .inl rfl⟩
  have hplace : StandsBetween (Text.ofString "L:\n# again\n jump L" ++ Text.ofString "\n")
      (Text.ofString "L:\n# again\n jump L").length := by
    rw [StandsBetween]
    decide +kernel
  have hmove : Edit "L: jump L\n" "L:\n jump L\n" :=
    @Edit.moveLabel [] "L:" "L" "\n" " jump L\n" (.inl rfl) hlabel (.inl rfl)
  have hinsert : Edit "L:\n jump L\n" "L:\n# again\n jump L\n" :=
    @Edit.insertLine "L:\n" "# again\n" " jump L\n" (.inr rfl) hline
  have happend : Edit "L:\n# again\n jump L\n" "L:\n# again\n jump L# end\n" :=
    @Edit.appendComment "L:\n# again\n jump L" "# end" "\n" (by decide) hplace rfl
  have hreturn : Edit "L:\n# again\n jump L# end\n" "L:\n# again\n jump L# end\r\n" :=
    @Edit.carriageReturn "L:\n# again\n jump L# end" [] (by decide)
  exact assemble_of_edits hcode
    (.tail (.tail (.tail (.single hmove) hinsert) happend) hreturn)

end Assembly

end StackMachine
