import StackMachine.Proofs.Assembly.Stretches

/-!
# The grammar of tokens

A text without errors is made of blanks, comments and tokens, one after another, and a token that
ends as a word does is not followed by what would continue the word.  Scanning yields exactly the
tokens of this grammar.  Where no token stands across a place, a text is made of what stands before
the place and what stands behind it, so that one of them can be exchanged without the other.
-/

namespace StackMachine

/-- A run of digits without a leading zero. -/
def Text.IsNatural : Text → Prop
  | [] => False
  | d :: v => (∀ x ∈ d :: v, x.isDigit = true) ∧ (d = CodeUnit.ofChar '0' → v = [])

namespace Assembly

/-- Two texts are apart: no word goes on from the first to the second. -/
def Apart (a b : Text) : Prop :=
  a.getLast?.any CodeUnit.isWordPart = false ∨ Text.Stops CodeUnit.isWordPart b

/-- The texts of the tokens of a kind. -/
inductive TokenKind.Matches : TokenKind → Text → Prop where
  | word {w : Text} (hw : w.IsWord) : Matches (Lexeme.wordKind w) w
  | natural {w : Text} (hw : w.IsNatural) : Matches .integer w
  | negative {w : Text} (hw : w.IsNatural) : Matches .integer (CodeUnit.ofChar '-' :: w)
  | colon : Matches .colon [CodeUnit.ofChar ':']
  | lineFeed : Matches .newline [Text.lineFeed]
  | lineEnd : Matches .newline [Text.carriageReturn, Text.lineFeed]

/-- A token without a place; all line ends are alike. -/
def TokenKind.plain (k : TokenKind) (w : Text) : Token :=
  if k = .newline then .bare .newline [Text.lineFeed] else .bare k w

/-- A text is made of blanks, comments and tokens, of which only the tokens are kept.  Whether it
ends within a comment is told with it. -/
inductive Lexes : Text → Bool → List Token → Prop where
  | nil : Lexes [] false []
  | blank {u : CodeUnit} {r : Text} {c : Bool} {ts : List Token} (hu : Lexeme.isBlank u = true)
    (h : Lexes r c ts) : Lexes (u :: r) c ts
  | opened {v : Text} (hv : ∀ x ∈ v, Lexeme.isLineEnd x = false) :
    Lexes (CodeUnit.ofChar '#' :: v) true []
  | comment {v r : Text} {u : CodeUnit} {c : Bool} {ts : List Token}
    (hv : ∀ x ∈ v, Lexeme.isLineEnd x = false) (hu : Lexeme.isLineEnd u = true)
    (h : Lexes (u :: r) c ts) : Lexes (CodeUnit.ofChar '#' :: (v ++ u :: r)) c ts
  | token {k : TokenKind} {u : CodeUnit} {v r : Text} {c : Bool} {ts : List Token}
    (hw : k.Matches (u :: v)) (hr : Apart (u :: v) r) (h : Lexes r c ts) :
    Lexes (u :: (v ++ r)) c (k.plain (u :: v) :: ts)

/-! ### Texts that are apart -/

/-- Neither a blank nor a line end continues a word. -/
theorem not_isWordPart {u : CodeUnit} (hu : Lexeme.isBlank u = true ∨ Lexeme.isLineEnd u = true) :
  u.isWordPart = false
  := by
  by_contra hpart
  rw [Bool.not_eq_false] at hpart
  have hplain := Lexeme.isPlain_of_isWordPart hpart
  rcases hu with hu | hu
  · rw [hplain.blank] at hu
    cases hu
  · rw [Lexeme.isLineEnd, Bool.or_eq_true, beq_iff_eq, beq_iff_eq] at hu
    rcases hu with hu | hu
    · exact hplain.lineFeed hu
    · exact hplain.carriageReturn hu

theorem apart_nil (b : Text) :
  Apart [] b
  := .inl rfl

/-- What is apart from a text is so if something stands before it. -/
theorem Apart.of_append {w a b : Text} (h : Apart (w ++ a) b) :
  Apart a b
  := by
  cases a with
  | nil => apply apart_nil
  | cons x a =>
    rwa [Apart, List.getLast?_append_of_ne_nil w (List.cons_ne_nil x a)] at h

theorem Apart.append_left {a b : Text} (h : Apart a b) (ha : a ≠ []) (w : Text) :
  Apart (w ++ a) b
  := by
  rwa [Apart, List.getLast?_append_of_ne_nil w ha]

theorem Apart.of_append_right {w a b : Text} (h : Apart w (a ++ b)) (ha : a ≠ []) :
  Apart w a
  := by
  obtain ⟨x, a, rfl⟩ := List.exists_cons_of_ne_nil ha
  exact h

theorem Apart.append_right {w a b : Text} (h : Apart w a) (hb : a = [] → Apart w b) :
  Apart w (a ++ b)
  := by
  cases a with
  | nil => apply hb rfl
  | cons x a => exact h

/-- What ends with a part of a word is apart only from what does not begin with one. -/
theorem Apart.stops {w b : Text} (h : Apart w b) (hne : w ≠ [])
    (hw : ∀ x ∈ w, x.isWordPart = true) :
  Text.Stops CodeUnit.isWordPart b
  := by
  rcases h with h | h
  · rw [List.getLast?_eq_some_getLast hne, Option.any_some,
      hw _ (List.getLast_mem hne)] at h
    cases h
  · exact h

/-! ### Tokens -/

namespace Lexeme

theorem stops_drop_takeWhile (P : CodeUnit → Bool) (r : Text) :
  Text.Stops P (r.drop (r.takeWhile P).length)
  := by
  induction r with
  | nil => rfl
  | cons u r ih =>
    by_cases hu : P u = true
    · rw [List.takeWhile_cons_of_pos hu]
      exact ih
    · rw [List.takeWhile_cons_of_neg hu]
      rw [Bool.not_eq_true] at hu
      exact hu

/-- An integer without sign is a natural number that is not continued. -/
theorem isNatural_of_unsigned? {s : Text} {n : Nat} (h : unsigned? s = some n) :
  Text.IsNatural (s.take n) ∧ Text.Stops CodeUnit.isWordPart (s.drop n)
  := by
  obtain ⟨hne, hdigits⟩ := isDigit_of_unsigned? h
  cases s with
  | nil => cases h
  | cons d r =>
    simp only [unsigned?] at h
    generalize hlength : (if d = CodeUnit.ofChar '0' then 0
      else (r.takeWhile CodeUnit.isDigit).length) = m at h
    split at h
    · split at h
      · cases h
      · next hstops =>
        cases h
        rw [Bool.not_eq_true] at hstops
        refine ⟨⟨hdigits, ?_⟩, hstops⟩
        intro hzero
        rw [if_pos hzero] at hlength
        rw [← hlength]
        apply List.take_zero
    · cases h

/-- A comment goes up to the end of the line. -/
theorem stops_of_comment {u : CodeUnit} {r : Text} {n : Nat} (h : ofText? u r = some (comment, n)) :
  Text.Stops (fun v => !isLineEnd v) (r.drop n)
  := by
  rw [ofText?] at h
  split at h
  · cases h
  · split at h
    · cases h
    · split at h
      · cases h
      · split at h
        · cases h
          apply stops_drop_takeWhile
        · split at h
          · cases h
          · split at h
            · cases h
            · obtain ⟨m, -, hmap⟩ := Option.map_eq_some_iff.mp h
              cases hmap

/-- What scans as a token is the text of one of its kind, and is not continued. -/
theorem matches_of_ofText? {u : CodeUnit} {r : Text} {k : TokenKind} {n : Nat}
    (h : ofText? u r = some (token k, n)) :
  k.Matches (u :: r.take n) ∧ Apart (u :: r.take n) (r.drop n)
  := by
  rw [ofText?] at h
  split at h
  · cases h
  · split at h
    · next hu =>
      cases h
      rw [hu]
      exact ⟨.lineFeed, .inl rfl⟩
    · split at h
      · next hu =>
        cases h
        obtain ⟨hu, hr⟩ := hu
        obtain ⟨r', rfl⟩ := List.head?_eq_some_iff.mp hr
        rw [hu]
        exact ⟨.lineEnd, .inl rfl⟩
      · split at h
        · cases h
        · split at h
          · next hu =>
            cases h
            constructor
            · apply TokenKind.Matches.word
              exact ⟨hu, of_mem_take_takeWhile⟩
            · right
              apply stops_drop_takeWhile
          · split at h
            · next hu =>
              cases h
              rw [hu]
              exact ⟨.colon, .inl rfl⟩
            · obtain ⟨m, hm, hmap⟩ := Option.map_eq_some_iff.mp h
              cases hmap
              rw [integer?] at hm
              split at hm
              · next hu =>
                obtain ⟨hnatural, hstops⟩ := isNatural_of_unsigned? hm
                rw [hu]
                exact ⟨.negative hnatural, .inr hstops⟩
              · obtain ⟨j, hj, rfl⟩ := Option.map_eq_some_iff.mp hm
                obtain ⟨hnatural, hstops⟩ := isNatural_of_unsigned? hj
                cases j with
                | zero => cases hnatural
                | succ j => exact ⟨.natural hnatural, .inr hstops⟩

end Lexeme

theorem unsigned?_of_isNatural {w r : Text} (hw : w.IsNatural)
    (hr : Text.Stops CodeUnit.isWordPart r) :
  Lexeme.unsigned? (w ++ r) = some w.length
  := by
  cases w with
  | nil => cases hw
  | cons d v => apply Lexeme.unsigned?_append hw.1 hw.2 hr

theorem isWordPart_of_isNatural {w : Text} (hw : w.IsNatural) :
  ∀ x ∈ w, x.isWordPart = true
  := by
  cases w with
  | nil => cases hw
  | cons d v =>
    intro x hx
    apply CodeUnit.isWordPart_of_isDigit (hw.1 x hx)

/-- The text of a token scans as the token before what does not continue it. -/
theorem TokenKind.Matches.ofText? {k : TokenKind} {u : CodeUnit} {v r : Text}
    (h : k.Matches (u :: v)) (hr : Apart (u :: v) r) :
  Lexeme.ofText? u (v ++ r) = some (.token k, v.length)
  := by
  cases h with
  | word hw =>
    apply Lexeme.ofText?_word hw.1 hw.2
    apply hr.stops (List.cons_ne_nil u v)
    intro x hx
    rcases List.mem_cons.mp hx with rfl | hx
    · rw [CodeUnit.isWordPart, hw.1, Bool.true_or]
    · apply hw.2 x hx
  | natural hw =>
    have hunsigned := unsigned?_of_isNatural hw
      (hr.stops (List.cons_ne_nil u v) (isWordPart_of_isNatural hw))
    rw [List.cons_append] at hunsigned
    rw [Lexeme.ofText?_digit (hw.1 u List.mem_cons_self), hunsigned]
    rfl
  | negative hw =>
    have hstops : Text.Stops CodeUnit.isWordPart r := by
      apply Apart.stops (w := v) _ _ (isWordPart_of_isNatural hw)
      · exact Apart.of_append (w := [CodeUnit.ofChar '-']) hr
      · rintro rfl
        cases hw
    rw [Lexeme.ofText?_minus, unsigned?_of_isNatural hw hstops]
    rfl
  | colon => rfl
  | lineFeed => rfl
  | lineEnd => rfl

/-- The text of a token consists of units of its kind. -/
theorem TokenKind.Matches.consists {k : TokenKind} {u : CodeUnit} {v : Text}
    (h : k.Matches (u :: v)) :
  Lexeme.Consists (.token k) u v
  := by
  have htext := h.ofText? (r := []) (.inr rfl)
  have hconsists := Lexeme.consists_of_ofText? htext
  rwa [List.take_left] at hconsists

/-! ### What a text begins with -/

section

variable {c : Bool} {ts : List Token}

/-- No token begins with the sign of a comment. -/
theorem TokenKind.Matches.ne_hash {k : TokenKind} {u : CodeUnit} {v : Text}
    (h : k.Matches (u :: v)) :
  u ≠ CodeUnit.ofChar '#'
  := by
  rintro rfl
  cases h.consists with
  | word hu => cases hu
  | integer hu => rcases hu with hu | hu <;> cases hu

theorem lexes_blank_iff {u : CodeUnit} {r : Text} (hu : Lexeme.isBlank u = true) :
  Lexes (u :: r) c ts ↔ Lexes r c ts
  := by
  constructor
  · intro h
    cases h with
    | blank _ h => exact h
    | opened => cases hu
    | comment => cases hu
    | @token k _ v r _ _ hw hr =>
      have htext := hw.ofText? hr
      rw [Lexeme.ofText?, if_pos hu] at htext
      cases htext
  · apply Lexes.blank hu

theorem lexes_blanks_iff {w r : Text} (hw : ∀ x ∈ w, Lexeme.isBlank x = true) :
  Lexes (w ++ r) c ts ↔ Lexes r c ts
  := by
  induction w with
  | nil => exact Iff.rfl
  | cons u w ih =>
    obtain ⟨hu, hw⟩ := List.forall_mem_cons.mp hw
    rw [List.cons_append, lexes_blank_iff hu, ih hw]

/-- A text that begins with a token is made of it and of what is behind it. -/
theorem lexes_token_iff {k : TokenKind} {u : CodeUnit} {v r : Text} (hw : k.Matches (u :: v))
    (hr : Apart (u :: v) r) :
  Lexes (u :: (v ++ r)) c ts ↔ ∃ ts', ts = k.plain (u :: v) :: ts' ∧ Lexes r c ts'
  := by
  have htext := hw.ofText? hr
  constructor
  · intro h
    generalize hs : v ++ r = s at h htext
    cases h with
    | blank hu =>
      rw [Lexeme.ofText?, if_pos hu] at htext
      cases htext
    | opened => cases hw.ne_hash rfl
    | comment => cases hw.ne_hash rfl
    | @token k' _ v' r' _ ts' hw' hr' h =>
      rw [hw'.ofText? hr'] at htext
      obtain ⟨hkind, hlength⟩ := Prod.mk.inj (Option.some.inj htext)
      obtain ⟨rfl, rfl⟩ := List.append_inj hs hlength.symm
      cases hkind
      exact ⟨ts', rfl, h⟩
  · rintro ⟨ts', rfl, h⟩
    exact .token hw hr h

/-- A comment goes on through units that do not end the line. -/
theorem lexes_comment_append_iff {v r : Text} (hv : ∀ x ∈ v, Lexeme.isLineEnd x = false) :
  Lexes (CodeUnit.ofChar '#' :: (v ++ r)) c ts ↔ Lexes (CodeUnit.ofChar '#' :: r) c ts
  := by
  constructor
  · intro h
    generalize hs : v ++ r = s at h
    cases h with
    | blank hu => cases hu
    | opened hs' =>
      rw [← hs] at hs'
      exact .opened (List.forall_mem_append.mp hs').2
    | @comment v' r' u _ _ hv' hu h =>
      rcases List.append_eq_append_iff.mp hs with ⟨x, rfl, rfl⟩ | ⟨x, rfl, hx⟩
      · exact .comment (List.forall_mem_append.mp hv').2 hu h
      · cases x with
        | nil =>
          cases hx
          exact .comment (v := []) nofun hu h
        | cons u' x =>
          cases hx
          rw [hv u (by simp)] at hu
          cases hu
    | token hw => cases hw.ne_hash rfl
  · intro h
    cases h with
    | blank hu => cases hu
    | opened hr => exact .opened (List.forall_mem_append.mpr ⟨hv, hr⟩)
    | @comment v' r u _ _ hv' hu h =>
      rw [← List.append_assoc]
      exact .comment (List.forall_mem_append.mpr ⟨hv, hv'⟩) hu h
    | token hw => cases hw.ne_hash rfl

/-- A comment is passed over up to the end of its line. -/
theorem lexes_comment_iff {v r : Text} {u : CodeUnit} (hv : ∀ x ∈ v, Lexeme.isLineEnd x = false)
    (hu : Lexeme.isLineEnd u = true) :
  Lexes (CodeUnit.ofChar '#' :: (v ++ u :: r)) c ts ↔ Lexes (u :: r) c ts
  := by
  constructor
  · rw [lexes_comment_append_iff hv]
    intro h
    generalize hs : u :: r = s at h
    cases h with
    | blank hu => cases hu
    | opened hs' =>
      rw [← hs] at hs'
      rw [hs' u List.mem_cons_self] at hu
      cases hu
    | @comment v' r' u' _ _ hv' hu' h =>
      cases v' with
      | nil => exact h
      | cons x v' =>
        cases hs
        rw [hv' u List.mem_cons_self] at hu
        cases hu
    | token hw => cases hw.ne_hash rfl
  · apply Lexes.comment hv hu

end

/-! ### Scanning -/

namespace Lexed

/-- A blank is passed over by itself. -/
theorem scan_blank {u : CodeUnit} (hu : Lexeme.isBlank u = true) (p : Place) (r : Text) :
  scan p (u :: r) = scan (p.after [u]) r
  := by
  have hline : Text.lineFeed ∉ [u] := Lexeme.lineFeed_not_mem hu nofun rfl
  have hfirst (p : Place) {u : CodeUnit} (hu : Lexeme.isBlank u = true) (r : Text) :
      scan p (u :: r) = scan (p.advance ((r.takeWhile Lexeme.isBlank).length + 1))
        (r.drop (r.takeWhile Lexeme.isBlank).length) := by
    rw [scan, Lexeme.ofText?, if_pos hu]
    rfl
  rw [Place.after_of_not_mem hline, hfirst p hu]
  cases r with
  | nil => rfl
  | cons v r =>
    by_cases hv : Lexeme.isBlank v = true
    · rw [hfirst _ hv, List.takeWhile_cons_of_pos hv, List.length_cons, List.drop_succ_cons,
        Place.advance_advance, List.length_singleton, Nat.add_comm 1]
    · rw [List.takeWhile_cons_of_neg hv]
      rfl

/-- A comment is passed over up to the end of the line. -/
theorem scan_comment {v r : Text} (hv : ∀ x ∈ v, Lexeme.isLineEnd x = false)
    (hr : Text.Stops (fun u => !Lexeme.isLineEnd u) r) (p : Place) :
  scan p (CodeUnit.ofChar '#' :: (v ++ r)) = scan (p.after (CodeUnit.ofChar '#' :: v)) r
  := by
  have hlength : ((v ++ r).takeWhile fun u => !Lexeme.isLineEnd u) = v := by
    apply Text.takeWhile_append _ hr
    intro x hx
    rw [hv x hx]
    rfl
  have htext : Lexeme.ofText? (CodeUnit.ofChar '#') (v ++ r) = some (.comment, v.length) := by
    change some (Lexeme.comment, ((v ++ r).takeWhile fun u => !Lexeme.isLineEnd u).length) = _
    rw [hlength]
  have hconsists : Lexeme.Consists .comment (CodeUnit.ofChar '#') v := .comment hv
  rw [scan, htext]
  simp only [List.drop_left, hconsists.placeAfter]

/-- A token is kept, and what is behind it is scanned. -/
theorem scan_token {k : TokenKind} {u : CodeUnit} {v r : Text} (hw : k.Matches (u :: v))
    (hr : Apart (u :: v) r) (p : Place) :
  scan p (u :: (v ++ r)) = token ⟨k, u :: v, p⟩ :: scan (p.after (u :: v)) r
  := by
  rw [scan, hw.ofText? hr]
  simp only [List.take_left, List.drop_left, hw.consists.placeAfter]

theorem scan_lineFeed (p : Place) :
  scan p [Text.lineFeed] = [token ⟨.newline, [Text.lineFeed], p⟩]
  := by
  have hscan := scan_token (v := []) (r := []) .lineFeed (.inl rfl) p
  have hnil : scan (p.after [Text.lineFeed]) [] = [] := by rw [scan]
  rw [hnil] at hscan
  exact hscan

end Lexed

/-- A token without its place; all line ends are alike. -/
def Token.plain (t : Token) : Token := t.kind.plain t.image

/-- A text of the grammar scans as its tokens, without errors. -/
theorem Lexes.scan {s : Text} {c : Bool} {ts : List Token} (h : Lexes s c ts) (p : Place) :
  Lexed.errors (Lexed.scan p s) = [] ∧ (Lexed.tokens (Lexed.scan p s)).map Token.plain = ts
  := by
  induction h generalizing p with
  | nil =>
    rw [Lexed.scan]
    exact ⟨rfl, rfl⟩
  | blank hu _ ih =>
    rw [Lexed.scan_blank hu]
    apply ih
  | @opened v hv =>
    have hscan := Lexed.scan_comment (r := []) hv rfl p
    rw [List.append_nil, Lexed.scan] at hscan
    rw [hscan]
    exact ⟨rfl, rfl⟩
  | @comment v r u _ _ hv hu _ ih =>
    have hstops : Text.Stops (fun u => !Lexeme.isLineEnd u) (u :: r) := by
      change (!Lexeme.isLineEnd u) = false
      rw [hu]
      rfl
    rw [Lexed.scan_comment hv hstops]
    apply ih
  | token hw hr _ ih =>
    rw [Lexed.scan_token hw hr]
    obtain ⟨herrors, htokens⟩ := ih (p.after _)
    exact ⟨herrors, congrArg (List.cons _) htokens⟩

/-- Before what does not continue it a text that does not end within a comment scans as it does by
itself. -/
theorem Lexes.scan_append {s r : Text} {c : Bool} {ts : List Token} (h : Lexes s c ts)
    (hc : c = false) (hr : Apart s r) (p : Place) :
  Lexed.scan p (s ++ r) = Lexed.scan p s ++ Lexed.scan (p.after s) r
  := by
  induction h generalizing p with
  | nil =>
    rw [Lexed.scan]
    rfl
  | @blank u s _ _ hu _ ih =>
    have hafter : p.after (u :: s) = (p.after [u]).after s := Place.after_append p [u] s
    rw [List.cons_append, Lexed.scan_blank hu, Lexed.scan_blank hu, hafter,
      ih hc (Apart.of_append (w := [u]) hr)]
  | opened => cases hc
  | @comment v s u _ _ hv hu _ ih =>
    have hstops (s : Text) : Text.Stops (fun u => !Lexeme.isLineEnd u) (u :: s) := by
      simp [Text.Stops, hu]
    have hafter : p.after (CodeUnit.ofChar '#' :: (v ++ u :: s))
        = (p.after (CodeUnit.ofChar '#' :: v)).after (u :: s) := Place.after_append p (_ :: v) _
    have hrest := ih hc (Apart.of_append (w := CodeUnit.ofChar '#' :: v) hr)
    rw [List.cons_append, List.append_assoc, List.cons_append, Lexed.scan_comment hv (hstops _),
      Lexed.scan_comment hv (hstops _), hafter, ← hrest]
    rfl
  | @token k u v s _ _ hw hs _ ih =>
    have hafter : p.after (u :: (v ++ s)) = (p.after (u :: v)).after s :=
      Place.after_append p (u :: v) s
    have hsr : Apart (u :: v) (s ++ r) := by
      apply hs.append_right
      rintro rfl
      rwa [List.append_nil] at hr
    rw [List.cons_append, List.append_assoc, Lexed.scan_token hw hsr, Lexed.scan_token hw hs,
      hafter, ih hc (Apart.of_append (w := u :: v) hr)]
    rfl

/-- A comment goes up to the end of the line, or of the text. -/
theorem Lexes.exists_comment {v r : Text} {c : Bool} {ts : List Token}
    (hv : ∀ x ∈ v, Lexeme.isLineEnd x = false)
    (hr : Text.Stops (fun u => !Lexeme.isLineEnd u) r) (h : Lexes r c ts) :
  ∃ c', Lexes (CodeUnit.ofChar '#' :: (v ++ r)) c' ts
  := by
  cases r with
  | nil =>
    cases h
    rw [List.append_nil]
    exact ⟨true, .opened hv⟩
  | cons u r =>
    have hu : Lexeme.isLineEnd u = true := by simpa [Text.Stops] using hr
    exact ⟨c, .comment hv hu h⟩

/-- A text that scans without errors is one of the grammar. -/
theorem exists_lexes {p : Place} {s : Text} (h : Lexed.errors (Lexed.scan p s) = []) :
  ∃ c, Lexes s c ((Lexed.tokens (Lexed.scan p s)).map Token.plain)
  := by
  fun_induction Lexed.scan p s with
  | case1 => exact ⟨false, .nil⟩
  | case2 p u r n kind htext rest ih =>
    obtain ⟨c, hrest⟩ := ih h
    obtain ⟨hw, hr⟩ := Lexeme.matches_of_ofText? htext
    have htoken := Lexes.token hw hr hrest
    rw [List.take_append_drop] at htoken
    exact ⟨c, htoken⟩
  | case3 p u r x n htext rest hx ih =>
    obtain ⟨c, hrest⟩ := ih h
    rw [← List.take_append_drop n r]
    have hconsists := Lexeme.consists_of_ofText? htext
    generalize hv : r.take n = v at hconsists
    cases hconsists with
    | blank hu hv => exact ⟨c, .blank hu ((lexes_blanks_iff hv).mpr hrest)⟩
    | comment hv => exact hrest.exists_comment hv (Lexeme.stops_of_comment htext)
    | _ => cases hx _ rfl
  | case4 => cases h

end Assembly

end StackMachine
