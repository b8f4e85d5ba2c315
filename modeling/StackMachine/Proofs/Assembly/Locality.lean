import StackMachine.Proofs.Assembly.Coverage

/-!
# Lines by themselves

What stands on a line is found by looking at that line alone: neither a token nor units that are
skipped go on behind a line feed, and nothing is decided by what is behind it.  So a text that
begins a line yields the same wherever it stands, but for offsets and lines.
-/

namespace StackMachine

namespace Assembly

/-! ### Behind other texts -/

/-- A place of a text that stands behind another one, of whole lines. -/
def Place.behind (a : Text) (p : Place) : Place :=
  ⟨p.offset + a.length, p.line + a.count Text.lineFeed, p.column⟩

/-- A token of a text that stands behind another one. -/
def Token.behind (a : Text) (t : Token) : Token := { t with place := t.place.behind a }

/-- An error of a text that stands behind another one. -/
def LexError.behind (a : Text) (e : LexError) : LexError := { e with place := e.place.behind a }

/-- What is found in a text that stands behind another one. -/
def Lexed.behind (a : Text) : Lexed → Lexed
  | token t => token (t.behind a)
  | error e => error (e.behind a)

theorem Place.advance_behind (a : Text) (p : Place) (n : Nat) :
  (p.behind a).advance n = (p.advance n).behind a
  := by
  simp only [behind, advance, Nat.add_right_comm]

theorem Place.nextLine_behind (a : Text) (p : Place) (n : Nat) :
  (p.behind a).nextLine n = (p.nextLine n).behind a
  := by
  simp only [behind, nextLine, Nat.add_right_comm]

theorem Lexeme.placeAfter_behind (x : Lexeme) (a : Text) (p : Place) (n : Nat) :
  x.placeAfter (p.behind a) n = (x.placeAfter p n).behind a
  := by
  rw [placeAfter, placeAfter]
  split
  · apply Place.nextLine_behind
  · apply Place.advance_behind

/-- The place behind whole lines is that of the start behind them. -/
theorem Place.after_eq_behind {a : Text} (ha : Text.EndsLine a) :
  start.after a = start.behind a
  := by
  rw [behind, mk.injEq]
  exact ⟨offset_after start a, line_after start a, column_after ha⟩

namespace Lexed

/-- Behind another text the same is found. -/
theorem scan_behind (a : Text) (p : Place) (s : Text) :
  scan (p.behind a) s = (scan p s).map (behind a)
  := by
  fun_induction scan p s with
  | case1 =>
    rw [scan]
    rfl
  | case2 p u r n kind h rest ih =>
    rw [scan, h]
    simp only [Lexeme.placeAfter_behind, ih]
    rfl
  | case3 p u r x n h rest hx ih =>
    rw [scan, h]
    simp only [Lexeme.placeAfter_behind, ih]
    rfl
  | case4 p u r h n ih =>
    rw [scan, h]
    simp only [Place.advance_behind]
    exact congrArg (List.cons _) ih

theorem tokens_append_behind (xs ys : List Lexed) (a : Text) :
  tokens (xs ++ ys.map (behind a)) = tokens xs ++ (tokens ys).map (Token.behind a)
  := by
  rw [tokens, tokens, tokens, List.filterMap_append, List.filterMap_map, List.map_filterMap]
  congr 2
  funext y
  cases y <;> rfl

theorem errors_append_behind (xs ys : List Lexed) (a : Text) :
  errors (xs ++ ys.map (behind a)) = errors xs ++ (errors ys).map (LexError.behind a)
  := by
  rw [errors, errors, errors, List.filterMap_append, List.filterMap_map, List.map_filterMap]
  congr 2
  funext y
  cases y <;> rfl

end Lexed

/-! ### Up to the line feed -/

namespace Lexeme

section

variable {r : Text} (hr : Text.lineFeed ∈ r) (b : Text)

include hr

/-- Units of a class to which the line feed does not belong end before it. -/
theorem takeWhile_lineFeed {P : CodeUnit → Bool} (hP : P Text.lineFeed = false) :
  (r ++ b).takeWhile P = r.takeWhile P ∧ (r.takeWhile P).length < r.length
  := by
  have hne : (r.takeWhile P).length ≠ r.length := by
    intro heq
    have hall := (List.takeWhile_prefix P).eq_of_length heq
    have := List.takeWhile_eq_self_iff.mp hall Text.lineFeed hr
    rw [hP] at this
    cases this
  constructor
  · rw [List.takeWhile_append, if_neg hne]
  · apply Nat.lt_of_le_of_ne (length_takeWhile_le P r) hne

/-- Whether units make an integer is decided before the line feed behind them. -/
theorem unsigned?_lineFeed :
  unsigned? (r ++ b) = unsigned? r
  := by
  cases r with
  | nil => cases hr
  | cons d r =>
    by_cases hd : d.isDigit = true
    · have hr : Text.lineFeed ∈ r := by
        apply (List.mem_cons.mp hr).resolve_left
        rintro rfl
        cases hd
      obtain ⟨hdigits, hlt⟩ := takeWhile_lineFeed hr b (P := CodeUnit.isDigit) rfl
      have hhead {n : Nat} (hn : n < r.length) : ((r ++ b).drop n).head? = (r.drop n).head? := by
        rw [List.drop_append_of_le_length hn.le, List.head?_append_of_ne_nil]
        rwa [Ne, List.drop_eq_nil_iff, Nat.not_le]
      rw [List.cons_append, unsigned?, unsigned?, hdigits]
      simp only [hd, if_true]
      rw [hhead]
      split
      · exact List.length_pos_of_mem hr
      · exact hlt
    · rw [List.cons_append, unsigned?, unsigned?, if_neg hd, if_neg hd]

theorem integer?_lineFeed (u : CodeUnit) :
  integer? u (r ++ b) = integer? u r
  := by
  rw [integer?, integer?, unsigned?_lineFeed hr, ← List.cons_append,
    unsigned?_lineFeed (List.mem_cons_of_mem u hr)]

/-- What begins with a unit is decided before the line feed behind it. -/
theorem ofText?_lineFeed_mem (u : CodeUnit) :
  ofText? u (r ++ b) = ofText? u r
  := by
  have hblank := (takeWhile_lineFeed hr b (P := isBlank) rfl).1
  have hcomment := (takeWhile_lineFeed hr b (P := fun v => !isLineEnd v) rfl).1
  obtain ⟨hword, hlt⟩ := takeWhile_lineFeed hr b (P := CodeUnit.isWordPart) rfl
  have hhead : (r ++ b).head? = r.head? :=
    List.head?_append_of_ne_nil r (List.ne_nil_of_mem hr)
  rw [ofText?, ofText?, hblank, hhead, hcomment, hword, integer?_lineFeed hr]
  simp only [List.take_append_of_le_length hlt.le]

/-- Units that begin nothing end before the line feed behind them. -/
theorem junk_lineFeed :
  junk (r ++ b) = junk r
  := by
  induction r with
  | nil => cases hr
  | cons u r ih =>
    by_cases hu : u = Text.lineFeed
    · subst hu
      rfl
    · have hr := (List.mem_cons.mp hr).resolve_left (Ne.symm hu)
      rw [List.cons_append, junk, junk, ofText?_lineFeed_mem hr, ih hr]

end

/-- What begins with a unit of whole lines does not depend on the lines behind them. -/
theorem ofText?_endsLine {u : CodeUnit} {r : Text} (h : Text.EndsLine (u :: r)) (b : Text) :
  ofText? u (r ++ b) = ofText? u r
  := by
  by_cases hu : u = Text.lineFeed
  · rw [hu, ofText?_lineFeed, ofText?_lineFeed]
  · apply ofText?_lineFeed_mem (h.mem hu)

end Lexeme

namespace Lexed

/-- The place behind a text is that behind its end, from the place where the end begins. -/
theorem after_of_cut {p p' : Place} {s w rest : Text} (hcut : s = w ++ rest)
    (hplace : p' = p.after w) :
  p'.after rest = p.after s
  := by
  rw [hplace, hcut, Place.after_append]

/-- Behind a line feed scanning begins anew. -/
theorem scan_append {a : Text} (ha : Text.EndsLine a) (b : Text) (p : Place) :
  scan p (a ++ b) = scan p a ++ scan (p.after a) b
  := by
  fun_induction scan p a with
  | case1 => rfl
  | case2 p u r n kind h rest ih =>
    obtain ⟨hcut, hplace⟩ := cut_of_ofText? h p
    have hle := Lexeme.le_of_ofText? h
    have hrest := ih (hcut ▸ ha).of_append
    rw [after_of_cut hcut hplace] at hrest
    rw [List.cons_append, scan, Lexeme.ofText?_endsLine ha, h]
    simp only [List.take_append_of_le_length hle, List.drop_append_of_le_length hle, hrest]
    rfl
  | case3 p u r x n h rest hx ih =>
    obtain ⟨hcut, hplace⟩ := cut_of_ofText? h p
    have hle := Lexeme.le_of_ofText? h
    have hrest := ih (hcut ▸ ha).of_append
    rw [after_of_cut hcut hplace] at hrest
    rw [List.cons_append, scan, Lexeme.ofText?_endsLine ha, h]
    simp only [List.drop_append_of_le_length hle, hrest]
    rfl
  | case4 p u r h n ih =>
    obtain ⟨hcut, hplace, -⟩ := cut_of_ofText?_none h p
    have hle := Lexeme.length_junk r
    have hrest := ih (hcut ▸ ha).of_append
    rw [after_of_cut hcut hplace] at hrest
    have hr : Text.lineFeed ∈ r := by
      apply ha.mem
      rintro rfl
      cases h
    rw [List.cons_append, scan, Lexeme.ofText?_endsLine ha, h]
    simp only [Lexeme.junk_lineFeed hr, List.drop_append_of_le_length hle]
    exact congrArg (List.cons _) hrest

/-- A text of whole lines yields what it yields by itself, and what follows it yields the same
behind it. -/
theorem scan_append_behind {a : Text} (ha : Text.EndsLine a) (b : Text) :
  scan .start (a ++ b) = scan .start a ++ (scan .start b).map (behind a)
  := by
  rw [scan_append ha, Place.after_eq_behind ha, scan_behind]

/-! ### Lines -/

/-- What is found in whole lines is found on one of them. -/
theorem line_of_mem_scan {s : Text} {y : Lexed} (hy : y ∈ scan .start s) :
  1 ≤ y.place.line ∧ (Text.EndsLine s → y.place.line ≤ s.count Text.lineFeed)
  := by
  obtain ⟨a, v, b, rfl, hstands⟩ := exists_stands y hy
  have hline : y.place.line = 1 + a.count Text.lineFeed := by
    rw [hstands.place, Place.line_after]
    rfl
  constructor
  · rw [hline]
    apply Nat.le_add_right
  · intro hs
    rw [List.append_assoc] at hs ⊢
    have hne : v ++ b ≠ [] := List.append_ne_nil_of_left_ne_nil hstands.ne_nil b
    have hmem := List.mem_of_getLast? (hs.of_append.resolve_left hne)
    have hpos := List.count_pos_iff.mpr hmem
    rw [hline, List.count_append]
    omega

theorem line_behind (a : Text) (y : Lexed) :
  (y.behind a).place.line = y.place.line + a.count Text.lineFeed
  := by
  cases y <;> rfl

/-- What is found on a line is what is found in its text alone. -/
theorem filter_line {a l : Text} (ha : Text.EndsLine a) (hl : Text.lineFeed ∉ l) (c : Text) :
  ((scan .start (a ++ (l ++ Text.lineFeed :: c))).filter
      fun y => y.place.line = a.count Text.lineFeed + 1)
    = (scan .start (l ++ [Text.lineFeed])).map (behind a)
  := by
  have hends := Text.endsLine_concat l
  have hcount : (l ++ [Text.lineFeed]).count Text.lineFeed = 1 := by
    rw [List.count_append, List.count_eq_zero.mpr hl]
    rfl
  have hcut : l ++ Text.lineFeed :: c = (l ++ [Text.lineFeed]) ++ c := by
    rw [List.append_assoc, List.singleton_append]
  have habove : (scan .start a).filter
      (fun y => y.place.line = a.count Text.lineFeed + 1) = [] := by
    apply List.filter_eq_nil_iff.mpr
    intro y hy
    have hle := (line_of_mem_scan hy).2 ha
    rw [decide_eq_true_iff]
    omega
  have hon : ((scan .start (l ++ [Text.lineFeed])).map (behind a)).filter
      (fun y => y.place.line = a.count Text.lineFeed + 1)
        = (scan .start (l ++ [Text.lineFeed])).map (behind a) := by
    apply List.filter_eq_self.mpr
    intro y hy
    obtain ⟨z, hz, rfl⟩ := List.mem_map.mp hy
    obtain ⟨hge, hle⟩ := line_of_mem_scan hz
    have hle := hle hends
    rw [decide_eq_true_iff, line_behind]
    omega
  have hbelow : ((scan .start c).map (behind (a ++ (l ++ [Text.lineFeed])))).filter
      (fun y => y.place.line = a.count Text.lineFeed + 1) = [] := by
    apply List.filter_eq_nil_iff.mpr
    intro y hy
    obtain ⟨z, hz, rfl⟩ := List.mem_map.mp hy
    have hge := (line_of_mem_scan hz).1
    rw [decide_eq_true_iff, line_behind, List.count_append, hcount]
    omega
  have hlines := ha.append hends
  rw [hcut, ← List.append_assoc, scan_append_behind hlines, scan_append_behind ha,
    List.filter_append, List.filter_append, habove, hon, hbelow, List.append_nil, List.nil_append]

end Lexed

/-- Scanning is local to lines.  Before any other text, whole lines yield the tokens and errors that
they yield by themselves, and what follows them yields its own, at offsets that are greater by the
length of the lines and on lines that are as many further down; the message of an error tells the
offset where it stands.  So what is found on a line depends on this line only, whatever stands on
the others. -/
theorem scan_linewise {a : Text} (ha : Text.EndsLine a) (b : Text) :
  Lexed.tokens (Lexed.scan .start (a ++ b))
      = Lexed.tokens (Lexed.scan .start a)
        ++ (Lexed.tokens (Lexed.scan .start b)).map (Token.behind a)
    ∧ Lexed.errors (Lexed.scan .start (a ++ b))
      = Lexed.errors (Lexed.scan .start a)
        ++ (Lexed.errors (Lexed.scan .start b)).map (LexError.behind a)
    ∧ (∀ e : LexError, (e.behind a).message
      = Text.concat ["unexpected character: ->", [e.unit], "<- at offset: ",
        Text.ofNat (e.place.offset + a.length), ", skipped ", Text.ofNat e.length, " characters."])
    ∧ ∀ l c, Text.lineFeed ∉ l →
      (Lexed.scan .start (a ++ (l ++ Text.lineFeed :: c))).filter
          (fun y => y.place.line = a.count Text.lineFeed + 1)
        = (Lexed.scan .start (l ++ [Text.lineFeed])).map (Lexed.behind a)
  := by
  rw [Lexed.scan_append_behind ha]
  refine ⟨Lexed.tokens_append_behind _ _ a, Lexed.errors_append_behind _ _ a, fun _ => rfl, ?_⟩
  intro l c hl
  exact Lexed.filter_line ha hl c

/-- Three lines with errors: what is found on the second one is found without the others. -/
theorem scan_linewise_errors :
  Text.EndsLine "0a @\r\n" ∧ Text.lineFeed ∉ Text.ofString "-b"
    ∧ Lexed.errors (Lexed.scan .start (Text.ofString "0a @\r\n" ++ "-b"))
      = Lexed.errors (Lexed.scan .start "0a @\r\n") ++ [⟨CodeUnit.ofChar '-', ⟨6, 2, 1⟩, 1⟩]
    ∧ (LexError.behind "0a @\r\n" ⟨CodeUnit.ofChar '-', .start, 1⟩).message
      = "unexpected character: ->-<- at offset: 6, skipped 1 characters."
    ∧ (Lexed.scan .start
        (Text.ofString "0a @\r\n" ++ (Text.ofString "-b" ++ Text.lineFeed :: "1x"))).filter
          (fun y => y.place.line = 2)
      = [.error ⟨CodeUnit.ofChar '-', ⟨6, 2, 1⟩, 1⟩, .token ⟨.identifier, "b", ⟨7, 2, 2⟩⟩,
        .token ⟨.newline, "\n", ⟨8, 2, 3⟩⟩]
  := by
  have ha : Text.EndsLine "0a @\r\n" := .inr rfl
  have hl : Text.lineFeed ∉ Text.ofString "-b" := by decide
  obtain ⟨-, herrors, hmessage, hline⟩ := scan_linewise ha "-b"
  refine ⟨ha, hl, ?_, ?_, ?_⟩
  · rw [herrors]
    decide +kernel
  · rw [hmessage]
    decide
  · refine (hline _ "1x" hl).trans ?_
    decide +kernel

end Assembly

end StackMachine
