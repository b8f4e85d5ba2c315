import StackMachine.Proofs.Assembly.Coverage
import StackMachine.Proofs.Assembly.Edits

/-!
# Rewriting names

Where a source has identifiers and colons other texts can be written.  If the identifiers become
words or integers, or are deleted together with the colons behind them, then the source scans as its
tokens with these changes, as nothing else in it is joined to what is new.
-/

namespace StackMachine

namespace Assembly

/-- The offset behind a token. -/
def Token.stop (t : Token) : Nat := t.place.offset + t.image.length

/-- A text that begins at the offset `n`, with other texts in the places of tokens that stand one
behind another. -/
def rewriteFrom (n : Nat) (s : Text) : List (Token × Text) → Text
  | [] => s
  | (t, w) :: es => s.take (t.place.offset - n) ++ w ++ rewriteFrom t.stop (s.drop (t.stop - n)) es

/-- Tokens are spelled anew: identifiers are exchanged, or deleted with the colons behind them.  It is
told whether the first token is such a colon. -/
inductive Respells : Bool → List Token → List (Token × Text) → List Token → Prop where
  | nil : Respells false [] [] []
  | keep {t : Token} {ts us : List Token} {es : List (Token × Text)} (h : Respells false ts es us) :
    Respells false (t :: ts) es (t :: us)
  | exchange {t : Token} {k : TokenKind} {w : Text} {ts us : List Token} {es : List (Token × Text)}
    (ht : t.kind = .identifier) (hw : k.Matches w) (h : Respells false ts es us) :
    Respells false (t :: ts) ((t, w) :: es) (⟨k, w, t.place⟩ :: us)
  | name {t : Token} {ts us : List Token} {es : List (Token × Text)} (ht : t.kind = .identifier)
    (h : Respells true ts es us) : Respells false (t :: ts) ((t, []) :: es) us
  | colon {t : Token} {ts us : List Token} {es : List (Token × Text)} (ht : t.kind = .colon)
    (h : Respells false ts es us) : Respells true (t :: ts) ((t, []) :: es) us

/-! ### Rewritten texts -/

/-- What stands before the first token that changes is left as it is. -/
theorem rewriteFrom_append {n : Nat} {a b : Text} {es : List (Token × Text)}
    (h : ∀ e ∈ es, n + a.length ≤ e.1.place.offset) :
  rewriteFrom n (a ++ b) es = a ++ rewriteFrom (n + a.length) b es
  := by
  cases es with
  | nil => rfl
  | cons e es =>
    obtain ⟨t, w⟩ := e
    have hle : n + a.length ≤ t.place.offset := h _ List.mem_cons_self
    have htake : (a ++ b).take (t.place.offset - n)
        = a ++ b.take (t.place.offset - (n + a.length)) := by
      rw [List.take_append, List.take_of_length_le (by omega), Nat.sub_add_eq]
    have hdrop : (a ++ b).drop (t.stop - n) = b.drop (t.stop - (n + a.length)) := by
      rw [Token.stop, List.drop_append, List.drop_eq_nil_of_le (by omega), List.nil_append,
        Nat.sub_add_eq]
    rw [rewriteFrom, rewriteFrom, htake, hdrop, List.append_assoc, List.append_assoc,
      List.append_assoc]

/-- What stands behind the last token that changes is left as it is. -/
theorem rewriteFrom_append_right {n : Nat} {a : Text} (b : Text) {es : List (Token × Text)}
    (hordered : es.Pairwise fun d e => d.1.stop ≤ e.1.place.offset)
    (h : ∀ e ∈ es, n ≤ e.1.place.offset ∧ e.1.stop ≤ n + a.length) :
  rewriteFrom n (a ++ b) es = rewriteFrom n a es ++ b
  := by
  induction es generalizing n a with
  | nil => rfl
  | cons e es ih =>
    obtain ⟨t, w⟩ := e
    obtain ⟨hfirst, hordered⟩ := List.pairwise_cons.mp hordered
    obtain ⟨⟨hle, hstop⟩, hrest⟩ := List.forall_mem_cons.mp h
    dsimp only at hfirst hle hstop
    have hge : t.place.offset ≤ t.stop := Nat.le_add_right _ _
    have htake : (a ++ b).take (t.place.offset - n) = a.take (t.place.offset - n) :=
      List.take_append_of_le_length (by omega)
    have hdrop : (a ++ b).drop (t.stop - n) = a.drop (t.stop - n) ++ b :=
      List.drop_append_of_le_length (by omega)
    have hmore : ∀ e ∈ es, t.stop ≤ e.1.place.offset
        ∧ e.1.stop ≤ t.stop + (a.drop (t.stop - n)).length := by
      intro e he
      refine ⟨hfirst e he, ?_⟩
      have := (hrest e he).2
      rw [List.length_drop]
      omega
    rw [rewriteFrom, rewriteFrom, htake, hdrop, ih hordered hmore]
    simp only [List.append_assoc]

/-- A text is written in the place of the token with which a text begins. -/
theorem rewriteFrom_cons (k : TokenKind) (p : Place) (v r w : Text) (es : List (Token × Text)) :
  rewriteFrom p.offset (v ++ r) ((⟨k, v, p⟩, w) :: es) = w ++ rewriteFrom (p.after v).offset r es
  := by
  rw [rewriteFrom, Token.stop, Nat.sub_self, Nat.add_sub_cancel_left, List.drop_left,
    List.take_zero, List.nil_append, Place.offset_after]

/-! ### Rewritten sources -/

section

variable {b : Bool} {ts us : List Token} {es : List (Token × Text)}

theorem Respells.sublist (h : Respells b ts es us) :
  (es.map Prod.fst).Sublist ts
  := by
  induction h with
  | nil => apply List.Sublist.refl
  | keep _ ih => apply ih.cons
  | exchange _ _ _ ih | name _ _ ih | colon _ _ ih => apply ih.cons_cons

/-- Only identifiers and colons change. -/
theorem Respells.kind (h : Respells b ts es us) :
  ∀ e ∈ es, e.1.kind = .identifier ∨ e.1.kind = .colon
  := by
  induction h with
  | nil => rintro _ ⟨⟩
  | keep _ ih => exact ih
  | exchange ht _ _ ih | name ht _ ih => exact List.forall_mem_cons.mpr ⟨.inl ht, ih⟩
  | colon ht _ ih => exact List.forall_mem_cons.mpr ⟨.inr ht, ih⟩

theorem Respells.mem (h : Respells b ts es us) {e : Token × Text} (he : e ∈ es) :
  e.1 ∈ ts
  := h.sublist.subset (List.mem_map_of_mem he)

end

/-- The tokens of a text stand behind its beginning. -/
theorem le_offset_of_mem_tokens {p : Place} {s : Text} :
  ∀ t ∈ Lexed.tokens (Lexed.scan p s), p.offset ≤ t.place.offset
  := by
  intro t ht
  obtain ⟨y, hy, hyt⟩ := List.mem_filterMap.mp ht
  cases y with
  | error => cases hyt
  | token u =>
    cases hyt
    exact (Lexed.tiles_scan p s).le _ hy

/-- What stands before the tokens of a text is left as it is when they are spelled anew. -/
theorem Respells.rewriteFrom_append {b : Bool} {us : List Token} {es : List (Token × Text)}
    {p : Place} {a s : Text} (h : Respells b (Lexed.tokens (Lexed.scan (p.after a) s)) es us) :
  rewriteFrom p.offset (a ++ s) es = a ++ rewriteFrom (p.after a).offset s es
  := by
  rw [Place.offset_after]
  apply Assembly.rewriteFrom_append
  intro e he
  rw [← Place.offset_after]
  exact le_offset_of_mem_tokens e.1 (h.mem he)

theorem TokenKind.Matches.ne_nil {k : TokenKind} {w : Text} (h : k.Matches w) :
  w ≠ []
  := by
  rintro rfl
  generalize hw : ([] : Text) = w at h
  cases h with
  | word h | natural h =>
    rw [← hw] at h
    cases h
  | _ => cases hw

theorem TokenKind.Matches.isWord {k : TokenKind} {w : Text} (h : k.Matches w)
    (hk : k = .identifier) :
  w.IsWord
  := by
  cases h with
  | word hw => exact hw
  | _ => cases hk

theorem TokenKind.Matches.eq_colon {k : TokenKind} {w : Text} (h : k.Matches w) (hk : k = .colon) :
  w = [CodeUnit.ofChar ':']
  := by
  cases h with
  | word hw =>
    rw [Lexeme.wordKind] at hk
    split at hk <;> cases hk
  | colon => rfl
  | _ => cases hk

/-- A head that does not continue a word is left as it is, unless it is a colon that is deleted. -/
def KeepsHead (b : Bool) (s s' : Text) : Prop :=
  Text.Stops CodeUnit.isWordPart s →
    s'.head? = s.head? ∨ b = true ∧ s.head? = some (CodeUnit.ofChar ':')

theorem keepsHead_cons (b : Bool) (u : CodeUnit) (r r' : Text) :
  KeepsHead b (u :: r) (u :: r')
  := fun _ => .inl rfl

/-- What does not continue a word does not do so if no colon is deleted. -/
theorem KeepsHead.stops {s s' : Text} (h : KeepsHead false s s')
    (hs : Text.Stops CodeUnit.isWordPart s) :
  Text.Stops CodeUnit.isWordPart s'
  := by
  rcases h hs with hhead | ⟨⟨⟩, -⟩
  rwa [Text.Stops, hhead]

/-- The head of a word does not have to be left. -/
theorem keepsHead_of_isWord {u : CodeUnit} {v : Text} (hw : Text.IsWord (u :: v)) (b : Bool)
    (r s' : Text) :
  KeepsHead b (u :: (v ++ r)) s'
  := by
  intro hs
  have hpart := hw.isWordPart u List.mem_cons_self
  rw [show u.isWordPart = false from hs] at hpart
  cases hpart

/-- A comment ends where it did, if the head of what is behind it is left. -/
theorem Lexes.commentOfKeepsHead {v r s' : Text} {u : CodeUnit} {b c : Bool} {ts : List Token}
    (hv : ∀ x ∈ v, Lexeme.isLineEnd x = false) (hu : Lexeme.isLineEnd u = true)
    (hhead : KeepsHead b (u :: r) s') (h : Lexes s' c ts) :
  Lexes (CodeUnit.ofChar '#' :: (v ++ s')) c ts
  := by
  rcases hhead (not_isWordPart (.inr hu)) with hhead | ⟨-, hcolon⟩
  · obtain ⟨r', rfl⟩ := List.head?_eq_some_iff.mp hhead
    exact .comment hv hu h
  · cases Option.some.inj hcolon
    cases hu

/-- A text that is made of blanks, comments and tokens is so if its tokens are spelled anew. -/
theorem Lexes.rewrite {s : Text} {c : Bool} {ts : List Token} (h : Lexes s c ts) {p : Place}
    {b : Bool} {us : List Token} {es : List (Token × Text)}
    (hrespells : Respells b (Lexed.tokens (Lexed.scan p s)) es us) :
  Lexes (rewriteFrom p.offset s es) c (us.map Token.plain)
    ∧ KeepsHead b s (rewriteFrom p.offset s es)
  := by
  -- By induction on what the text is made of; that heads are left carries it, as it keeps words and
  -- comments from going on into what is behind them.
  induction h generalizing p b us es with
  | nil =>
    rw [Lexed.scan] at hrespells
    cases hrespells
    exact ⟨.nil, fun _ => .inl rfl⟩
  | blank hu _ ih =>
    rw [Lexed.scan_blank hu] at hrespells
    have hrewrite := hrespells.rewriteFrom_append
    rw [List.singleton_append] at hrewrite
    rw [hrewrite]
    exact ⟨.blank hu (ih hrespells).1, keepsHead_cons _ _ _ _⟩
  | opened hv =>
    have hscan := Lexed.scan_comment (r := []) hv rfl p
    rw [List.append_nil, Lexed.scan] at hscan
    rw [hscan] at hrespells
    cases hrespells
    exact ⟨.opened hv, keepsHead_cons _ _ _ _⟩
  | @comment v r u _ _ hv hu _ ih =>
    have hstops : Text.Stops (fun u => !Lexeme.isLineEnd u) (u :: r) := by
      change (!Lexeme.isLineEnd u) = false
      rw [hu]
      rfl
    rw [Lexed.scan_comment hv hstops] at hrespells
    obtain ⟨hlexes, hhead⟩ := ih hrespells
    have hrewrite := hrespells.rewriteFrom_append
    rw [List.cons_append] at hrewrite
    rw [hrewrite]
    exact ⟨hlexes.commentOfKeepsHead hv hu hhead, keepsHead_cons _ _ _ _⟩
  | @token k u v r _ _ hw hr _ ih =>
    rw [Lexed.scan_token hw hr] at hrespells
    change Respells b (⟨k, u :: v, p⟩ :: Lexed.tokens (Lexed.scan (p.after (u :: v)) r)) es us
      at hrespells
    have hfirst := rewriteFrom_cons k p (u :: v) r
    rw [List.cons_append] at hfirst
    cases hrespells with
    | keep h =>
      obtain ⟨hlexes, hhead⟩ := ih h
      have hrewrite := h.rewriteFrom_append
      rw [List.cons_append] at hrewrite
      rw [hrewrite]
      exact ⟨.token hw (hr.imp_right hhead.stops) hlexes, keepsHead_cons _ _ _ _⟩
    | @exchange _ k' w _ _ _ ht hw' h =>
      obtain ⟨hlexes, hhead⟩ := ih h
      have hword := hw.isWord ht
      have hstops := hhead.stops (hr.stops (List.cons_ne_nil u v) hword.isWordPart)
      rw [hfirst]
      refine ⟨?_, keepsHead_of_isWord hword _ _ _⟩
      obtain ⟨u', v', rfl⟩ := List.exists_cons_of_ne_nil hw'.ne_nil
      exact .token hw' (.inr hstops) hlexes
    | name ht h =>
      rw [hfirst]
      exact ⟨(ih h).1, keepsHead_of_isWord (hw.isWord ht) _ _ _⟩
    | colon ht h =>
      cases hw.eq_colon ht
      rw [hfirst]
      exact ⟨(ih h).1, fun _ => .inr ⟨rfl, rfl⟩⟩

/-! ### Assembling -/

/-- The tokens of a text stand one behind another. -/
theorem pairwise_tokens (p : Place) (s : Text) :
  (Lexed.tokens (Lexed.scan p s)).Pairwise fun t u => t.stop ≤ u.place.offset
  := by
  apply List.Pairwise.filterMap _ _ (Lexed.tiles_scan p s).pairwise
  intro y z hyz t ht u hu
  cases y <;> cases ht
  cases z <;> cases hu
  exact hyz

/-- A token that is no line end stands before the line feed at the end of a text. -/
theorem stop_le_of_mem_tokens {a : Text} {t : Token}
    (ht : t ∈ Lexed.tokens (Lexed.scan .start (a ++ [Text.lineFeed]))) (hk : t.kind ≠ .newline) :
  t.stop ≤ a.length
  := by
  obtain ⟨y, hy, hyt⟩ := List.mem_filterMap.mp ht
  obtain ⟨x, v, b, hcut, hstands⟩ := Lexed.exists_stands y hy
  cases hstands with
  | error => cases hyt
  | @token k u v _ _ hconsists =>
    cases hyt
    have hoffset : (Place.start.after x).offset = x.length := by
      rw [Place.offset_after]
      exact Nat.zero_add _
    have hlength := congrArg List.length hcut
    rw [List.length_append, List.length_append, List.length_append, List.length_singleton]
      at hlength
    have hb : b ≠ [] := by
      rintro rfl
      have hlast := congrArg List.getLast? hcut
      rw [List.append_nil, List.getLast?_concat,
        List.getLast?_append_of_ne_nil x (List.cons_ne_nil u v)] at hlast
      apply hconsists.lineFeed_not_mem _ (List.mem_of_getLast? hlast.symm)
      rintro ⟨⟩
      exact hk rfl
    have hpos := List.length_pos_iff.mpr hb
    change (Place.start.after x).offset + (u :: v).length ≤ a.length
    omega

/-- A source whose tokens are spelled anew assembles as they do. -/
theorem assemble_rewriteFrom {source : Text} {code : Code} {b : Bool} {us : List Token}
    {es : List (Token × Text)}
    (hscans : Lexed.errors (Lexed.scan .start (terminated source)) = [])
    (h : Respells b (Lexed.tokens (Lexed.scan .start (terminated source))) es us)
    (hcode : assembleTokens us = .ok code) :
  assemble (rewriteFrom 0 source es) = .ok code
  := by
  obtain ⟨a, ha, hsource⟩ : ∃ a, terminated source = a ++ [Text.lineFeed]
      ∧ (source = a ∨ source = a ++ [Text.lineFeed]) := by
    rw [terminated]
    split
    · next hends =>
      obtain ⟨a, rfl⟩ := List.getLast?_eq_some_iff.mp hends
      exact ⟨a, rfl, .inr rfl⟩
    · exact ⟨source, rfl, .inl rfl⟩
  obtain ⟨c, hlexes⟩ := exists_lexes hscans
  cases hlexes.closed (endsLine_terminated source)
  have hrewrite := (hlexes.rewrite h).1
  rw [ha] at h hrewrite
  have hordered : es.Pairwise fun d e => d.1.stop ≤ e.1.place.offset :=
    List.pairwise_map.mp ((pairwise_tokens _ _).sublist h.sublist)
  have hinside : ∀ e ∈ es, 0 ≤ e.1.place.offset ∧ e.1.stop ≤ 0 + a.length := by
    intro e he
    refine ⟨Nat.zero_le _, ?_⟩
    rw [Nat.zero_add]
    apply stop_le_of_mem_tokens (h.mem he)
    rcases h.kind e he with hk | hk
    · rw [hk]
      rintro ⟨⟩
    · rw [hk]
      rintro ⟨⟩
  have happend := rewriteFrom_append_right [Text.lineFeed] hordered hinside
  have hassemble : assemble (rewriteFrom 0 a es ++ [Text.lineFeed]) = .ok code := by
    apply assemble_iff_lexes.mpr
    refine ⟨us.map Token.plain, ?_, assembleTokens_plain.mpr hcode⟩
    rw [terminated_append, ← happend]
    exact hrewrite
  rcases hsource with rfl | rfl
  · exact Edit.removeLineFeed.assemble hassemble
  · rwa [happend]

end Assembly

end StackMachine
