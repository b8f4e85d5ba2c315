import StackMachine.Proofs.Assembly.Seams

/-!
# The layout of a text

Blanks between tokens, comments at the ends of lines and carriage returns before line feeds change
no token of a text but for its place.  A line of its own for blanks and a comment, or a line end
behind a label, adds the token of a line end, where a line begins or behind the label.
-/

namespace StackMachine

namespace Assembly

/-- The end of a line: a line feed, perhaps behind a carriage return. -/
def IsLineEnd (e : Text) : Prop :=
  e = [Text.lineFeed] ∨ e = [Text.carriageReturn, Text.lineFeed]

/-- A text that is nothing but blanks. -/
def IsBlanks (w : Text) : Prop := ∀ x ∈ w, Lexeme.isBlank x = true

/-- A comment: its sign and units that do not end the line. -/
def IsComment : Text → Prop
  | [] => False
  | u :: v => u = CodeUnit.ofChar '#' ∧ ∀ x ∈ v, Lexeme.isLineEnd x = false

instance : DecidablePred IsBlanks
  | w => List.decidableBAll _ w

instance : DecidablePred IsComment
  | [] => inferInstanceAs (Decidable False)
  | _ :: v => @instDecidableAnd _ _ _ (List.decidableBAll _ v)

/-- A line with blanks and at most a comment. -/
def IsEmptyLine (line : Text) : Prop :=
  ∃ w v e, line = w ++ v ++ e ∧ IsBlanks w ∧ (v = [] ∨ IsComment v) ∧ IsLineEnd e

/-- A label: a name that is no mnemonic before a colon, among blanks. -/
def IsLabel (label name : Text) : Prop :=
  ∃ w v, label = w ++ name ++ v ++ [CodeUnit.ofChar ':'] ∧ IsBlanks w ∧ name.IsWord
    ∧ Lexeme.wordKind name = .identifier ∧ IsBlanks v

/-- The token of a line end. -/
def newline : Token := .bare .newline [Text.lineFeed]

section

variable {a b : Text} {c : Bool} {ts : List Token}

/-! ### Blanks, comments and carriage returns -/

theorem not_isLineEnd_of_isBlank {u : CodeUnit} (hu : Lexeme.isBlank u = true) :
  Lexeme.isLineEnd u = false
  := by
  rw [Lexeme.isBlank, Bool.or_eq_true, beq_iff_eq, beq_iff_eq] at hu
  rcases hu with rfl | rfl
  · rfl
  · rfl

theorem lexes_comment_blanks_iff {w : Text} (hw : IsBlanks w) :
  Lexes (CodeUnit.ofChar '#' :: (w ++ b)) c ts ↔ Lexes (CodeUnit.ofChar '#' :: b) c ts
  := lexes_comment_append_iff fun x hx => not_isLineEnd_of_isBlank (hw x hx)

/-- Blanks may be inserted where no token stands across. -/
theorem Lexes.insertBlanks (h : Lexes (a ++ b) c ts) (hab : Between .start a b) {w : Text}
    (hw : IsBlanks w) :
  Lexes (a ++ (w ++ b)) c ts
  := by
  apply h.replace hab (lexes_blanks_iff hw).mpr (lexes_comment_blanks_iff hw).mpr
  intro hapart
  cases w with
  | nil => exact hapart
  | cons u w => exact .inr (not_isWordPart (.inl (hw u List.mem_cons_self)))

/-- Blanks may be removed from between what is apart without them. -/
theorem Lexes.removeBlanks {w : Text} (h : Lexes (a ++ (w ++ b)) c ts) (hw : IsBlanks w)
    (hapart : Apart a b) :
  Lexes (a ++ b) c ts
  := by
  cases w with
  | nil => exact h
  | cons u w =>
    have hab : Between .start a (u :: w ++ b) := between_of_not_mem (.inl (hw u List.mem_cons_self))
    apply h.replace hab (lexes_blanks_iff hw).mp (lexes_comment_blanks_iff hw).mp
    intro _
    exact hapart

/-- A comment before the end of its line is passed over. -/
theorem lexes_isComment_iff {v : Text} {u : CodeUnit} (hv : IsComment v)
    (hu : Lexeme.isLineEnd u = true) :
  Lexes (v ++ u :: b) c ts ↔ Lexes (u :: b) c ts
  := by
  cases v with
  | nil => cases hv
  | cons x v =>
    obtain ⟨rfl, hv⟩ := hv
    exact lexes_comment_iff hv hu

/-- A comment within another one is nothing but a part of it. -/
theorem lexes_comment_isComment_iff {v : Text} (hv : IsComment v) :
  Lexes (CodeUnit.ofChar '#' :: (v ++ b)) c ts ↔ Lexes (CodeUnit.ofChar '#' :: b) c ts
  := by
  apply lexes_comment_append_iff
  cases v with
  | nil => cases hv
  | cons x v =>
    obtain ⟨rfl, hv⟩ := hv
    intro y hy
    rcases List.mem_cons.mp hy with rfl | hy
    · rfl
    · exact hv y hy

/-- A comment may be appended to a line. -/
theorem Lexes.appendComment {u : CodeUnit} {v : Text} (h : Lexes (a ++ u :: b) c ts)
    (hab : Between .start a (u :: b)) (hv : IsComment v) (hu : Lexeme.isLineEnd u = true) :
  Lexes (a ++ (v ++ u :: b)) c ts
  := by
  apply h.replace hab (lexes_isComment_iff hv hu).mpr (lexes_comment_isComment_iff hv).mpr
  intro _
  cases v with
  | nil => cases hv
  | cons x v =>
    cases hv.1
    exact .inr rfl

/-- A comment may be deleted from a line. -/
theorem Lexes.deleteComment {u : CodeUnit} {v : Text} (h : Lexes (a ++ (v ++ u :: b)) c ts)
    (hv : IsComment v) (hu : Lexeme.isLineEnd u = true) :
  Lexes (a ++ u :: b) c ts
  := by
  have hab : Between .start a (v ++ u :: b) := by
    cases v with
    | nil => cases hv
    | cons x v => exact between_of_not_mem (.inr hv.1)
  apply h.replace hab (lexes_isComment_iff hv hu).mp (lexes_comment_isComment_iff hv).mp
  intro _
  exact .inr (not_isWordPart (.inr hu))

theorem lexes_lineEnd_iff {e : Text} (he : IsLineEnd e) :
  Lexes (e ++ b) c ts ↔ ∃ ts', ts = newline :: ts' ∧ Lexes b c ts'
  := by
  rcases he with rfl | rfl
  · exact lexes_token_iff .lineFeed (.inl rfl)
  · exact lexes_token_iff .lineEnd (.inl rfl)

/-- A carriage return may be put before a line feed. -/
theorem Lexes.carriageReturn (h : Lexes (a ++ Text.lineFeed :: b) c ts)
    (ha : a.getLast? ≠ some Text.carriageReturn) :
  Lexes (a ++ Text.carriageReturn :: Text.lineFeed :: b) c ts
  := by
  have hlexes {ts : List Token} (hb : Lexes (Text.lineFeed :: b) c ts) :
      Lexes (Text.carriageReturn :: Text.lineFeed :: b) c ts :=
    (lexes_lineEnd_iff (.inr rfl)).mpr ((lexes_lineEnd_iff (.inl rfl)).mp hb)
  apply h.replace (between_lineFeed ha) hlexes
  · intro ts hb
    have hfeed := (lexes_comment_iff (v := []) nofun rfl).mp hb
    apply (lexes_comment_iff (v := []) nofun rfl).mpr (hlexes hfeed)
  · intro _
    exact .inr rfl

/-! ### Lines -/

/-- A text that ends with a line feed does not end within a comment. -/
theorem Lexes.closed (h : Lexes a c ts) (ha : Text.EndsLine a) :
  c = false
  := by
  induction h with
  | nil => rfl
  | blank _ _ ih => exact ih ha.tail
  | opened hv =>
    rcases ha with ha | ha
    · cases ha
    · rcases List.mem_cons.mp (List.mem_of_getLast? ha) with hmem | hmem
      · cases hmem
      · cases hv _ hmem
  | @comment v _ _ _ _ _ _ _ ih => exact ih (Text.EndsLine.of_append (w := _ :: v) ha)
  | @token _ u v _ _ _ _ _ _ ih => exact ih (Text.EndsLine.of_append (w := u :: v) ha)

/-- Tokens of which there are none or that end with a line end, so that what follows begins a line. -/
def EndsLine (ts : List Token) : Prop := ts = [] ∨ ∃ ts', ts = ts' ++ [newline]

/-- The tokens of a text that is empty or ends with a line feed are none or end with a line end. -/
theorem Lexes.endsLine (h : Lexes a c ts) (ha : Text.EndsLine a) :
  EndsLine ts
  := by
  rcases ha with rfl | ha
  · cases h
    exact .inl rfl
  · obtain ⟨-, htokens⟩ := h.scan .start
    obtain ⟨us, t, hus, ht⟩ := Lexed.exists_endsLine (p := .start) ha
    right
    use us.map Token.plain
    have hkind : t.kind = .newline := of_decide_eq_true ht
    rw [← htokens, hus, List.map_append, List.map_singleton, Token.plain, hkind]
    rfl

/-- A text is cut where a line begins. -/
theorem lexes_append_iff (ha : Text.EndsLine a) :
  Lexes (a ++ b) c ts ↔ ∃ ts' ts'', ts = ts' ++ ts'' ∧ Lexes a false ts' ∧ Lexes b c ts''
  := by
  constructor
  · intro h
    obtain ⟨c', ts', ts'', hbefore, hafter, rfl⟩ := h.cut rfl (between_of_endsLine ha)
    cases hbefore.closed ha
    cases hafter with
    | afresh _ hafter => exact ⟨ts', ts'', rfl, hbefore, hafter⟩
  · rintro ⟨ts', ts'', rfl, hbefore, hafter⟩
    apply hbefore.append (.afresh _ hafter)
    left
    rcases ha with rfl | ha
    · rfl
    · rw [ha]
      rfl

/-- A line with blanks and at most a comment has no token but its end. -/
theorem lexes_emptyLine_iff {line : Text} (hline : IsEmptyLine line) :
  Lexes (line ++ b) c ts ↔ ∃ ts', ts = newline :: ts' ∧ Lexes b c ts'
  := by
  obtain ⟨w, v, e, rfl, hw, hv, he⟩ := hline
  rw [List.append_assoc, List.append_assoc, lexes_blanks_iff hw]
  rcases hv with rfl | hv
  · exact lexes_lineEnd_iff he
  · rw [← lexes_lineEnd_iff he]
    rcases he with rfl | rfl
    · exact lexes_isComment_iff hv rfl
    · exact lexes_isComment_iff hv rfl

/-- A label has two tokens, its name and its colon. -/
theorem lexes_label_iff {label name : Text} (hlabel : IsLabel label name) :
  Lexes (label ++ b) c ts
    ↔ ∃ ts', ts = .bare .identifier name :: .bare .colon [CodeUnit.ofChar ':'] :: ts'
      ∧ Lexes b c ts'
  := by
  obtain ⟨w, v, rfl, hw, hname, hkind, hv⟩ := hlabel
  have hcolon {ts : List Token} : Lexes (v ++ CodeUnit.ofChar ':' :: b) c ts
      ↔ ∃ ts', ts = .bare .colon [CodeUnit.ofChar ':'] :: ts' ∧ Lexes b c ts' := by
    rw [lexes_blanks_iff hv]
    exact lexes_token_iff .colon (.inl rfl)
  have hstops : Text.Stops CodeUnit.isWordPart (v ++ CodeUnit.ofChar ':' :: b) := by
    cases v with
    | nil => rfl
    | cons u v => exact not_isWordPart (.inl (hv u List.mem_cons_self))
  rw [List.append_assoc, List.append_assoc, List.append_assoc, lexes_blanks_iff hw]
  cases name with
  | nil => cases hname
  | cons u r =>
    change Lexes (u :: (r ++ (v ++ CodeUnit.ofChar ':' :: b))) c ts ↔ _
    rw [lexes_token_iff (.word hname) (.inr hstops), hkind]
    constructor
    · rintro ⟨ts', rfl, h⟩
      obtain ⟨ts'', rfl, hrest⟩ := hcolon.mp h
      exact ⟨ts'', rfl, hrest⟩
    · rintro ⟨ts', rfl, h⟩
      exact ⟨_, rfl, hcolon.mpr ⟨ts', rfl, h⟩⟩

end

end Assembly

end StackMachine
