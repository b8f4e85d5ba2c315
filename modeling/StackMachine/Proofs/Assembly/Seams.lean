import StackMachine.Proofs.Assembly.Lexing

/-!
# Seams of a text

Where no token stands across a place of a text, what stands before the place is made of blanks,
comments and tokens by itself, and what stands behind it is so as well, but for a comment that goes
on.  What stands behind the place can then be exchanged, if it does not continue a word and is the
same to a comment.
-/

namespace StackMachine

namespace Assembly

/-- No token stands across the seam of two texts, where the first begins at a place. -/
def Between (p : Place) (a b : Text) : Prop :=
  ∀ t ∈ Lexed.tokens (Lexed.scan p (a ++ b)),
    t.place.offset + t.image.length ≤ p.offset + a.length ∨ p.offset + a.length ≤ t.place.offset

/-- What stands behind a text goes on from it: afresh, or with the comment in which the text
ends. -/
inductive GoesOn (a b : Text) (c : Bool) (ts : List Token) : Bool → Prop where
  | afresh (hapart : Apart a b) (h : Lexes b c ts) : GoesOn a b c ts false
  | comment (h : Lexes (CodeUnit.ofChar '#' :: b) c ts) : GoesOn a b c ts true

/-! ### Two texts together -/

theorem GoesOn.of_append {w a b : Text} {c c' : Bool} {ts : List Token}
    (h : GoesOn (w ++ a) b c ts c') :
  GoesOn a b c ts c'
  := by
  cases h with
  | afresh hapart h => exact .afresh hapart.of_append h
  | comment h => exact .comment h

theorem GoesOn.append {a b w : Text} {c c' : Bool} {ts : List Token} (h : GoesOn a b c ts c')
    (hw : a = [] → Apart w b) :
  GoesOn (w ++ a) b c ts c'
  := by
  cases h with
  | afresh hapart h =>
    apply GoesOn.afresh _ h
    cases a with
    | nil =>
      rw [List.append_nil]
      exact hw rfl
    | cons x a => apply hapart.append_left (List.cons_ne_nil x a)
  | comment h => exact .comment h

/-- What goes on from a text that is made of blanks, comments and tokens makes with it another
one. -/
theorem Lexes.append {a b : Text} {c c' : Bool} {ts ts' : List Token} (h : Lexes a c' ts)
    (hb : GoesOn a b c ts' c') :
  Lexes (a ++ b) c (ts ++ ts')
  := by
  induction h with
  | nil =>
    cases hb with
    | afresh _ h => exact h
  | blank hu _ ih => exact .blank hu (ih (GoesOn.of_append (w := [_]) hb))
  | opened hv =>
    cases hb with
    | comment h => exact (lexes_comment_append_iff hv).mpr h
  | @comment v r u _ _ hv hu _ ih =>
    have hrest := ih (GoesOn.of_append (w := CodeUnit.ofChar '#' :: v) hb)
    rw [List.cons_append, List.append_assoc]
    exact .comment hv hu hrest
  | @token k u v r c'' _ hw hr hrest ih =>
    have hgoes : GoesOn r b c ts' c'' := GoesOn.of_append (w := u :: v) hb
    rw [List.cons_append, List.append_assoc, List.cons_append]
    apply Lexes.token hw _ (ih hgoes)
    apply hr.append_right
    rintro rfl
    cases hrest
    cases hb with
    | afresh hapart => rwa [List.append_nil] at hapart

/-! ### A text cut in two -/

/-- A text is cut into what stands before a seam and what goes on behind it. -/
def IsCut (a b : Text) (c : Bool) (ts : List Token) : Prop :=
  ∃ c' ts' ts'', Lexes a c' ts' ∧ GoesOn a b c ts'' c' ∧ ts = ts' ++ ts''

section

variable {a b : Text} {c : Bool} {ts : List Token}

theorem isCut_nil (h : Lexes b c ts) :
  IsCut [] b c ts
  := ⟨false, [], ts, .nil, .afresh (apart_nil b) h, rfl⟩

theorem IsCut.blank {u : CodeUnit} (h : IsCut a b c ts) (hu : Lexeme.isBlank u = true) :
  IsCut (u :: a) b c ts
  := by
  obtain ⟨c', ts', ts'', ha, hb, hts⟩ := h
  refine ⟨c', ts', ts'', .blank hu ha, GoesOn.append (w := [u]) hb ?_, hts⟩
  intro _
  exact .inl (not_isWordPart (.inl hu))

/-- A seam within a comment. -/
theorem isCut_comment {v : Text} (hv : ∀ x ∈ v, Lexeme.isLineEnd x = false)
    (h : Lexes (CodeUnit.ofChar '#' :: b) c ts) :
  IsCut (CodeUnit.ofChar '#' :: v) b c ts
  := ⟨true, [], ts, .opened hv, .comment h, rfl⟩

theorem IsCut.comment {v : Text} {u : CodeUnit} (h : IsCut (u :: a) b c ts)
    (hv : ∀ x ∈ v, Lexeme.isLineEnd x = false) (hu : Lexeme.isLineEnd u = true) :
  IsCut (CodeUnit.ofChar '#' :: (v ++ u :: a)) b c ts
  := by
  obtain ⟨c', ts', ts'', ha, hb, hts⟩ := h
  refine ⟨c', ts', ts'', .comment hv hu ha,
    GoesOn.append (w := CodeUnit.ofChar '#' :: v) hb ?_, hts⟩
  rintro ⟨⟩

theorem IsCut.token {k : TokenKind} {u : CodeUnit} {v : Text} (h : IsCut a b c ts)
    (hw : k.Matches (u :: v)) (hr : Apart (u :: v) (a ++ b)) :
  IsCut (u :: (v ++ a)) b c (k.plain (u :: v) :: ts)
  := by
  obtain ⟨c', ts', ts'', ha, hb, hts⟩ := h
  refine ⟨c', k.plain (u :: v) :: ts', ts'', .token hw ?_ ha,
    GoesOn.append (w := u :: v) hb ?_, congrArg (List.cons _) hts⟩
  · cases a with
    | nil => exact .inr rfl
    | cons x a => exact hr.of_append_right (List.cons_ne_nil x a)
  · rintro rfl
    exact hr

end

/-- A seam behind other units is a seam of what stands behind them. -/
theorem Between.of_append {p : Place} {w a b : Text} (h : Between p (w ++ a) b) (xs : List Lexed)
    (hscan : Lexed.scan p (w ++ (a ++ b)) = xs ++ Lexed.scan (p.after w) (a ++ b)) :
  Between (p.after w) a b
  := by
  intro t ht
  have hmem : t ∈ Lexed.tokens (Lexed.scan p (w ++ a ++ b)) := by
    rw [List.append_assoc, hscan, Lexed.tokens, List.filterMap_append]
    exact List.mem_append_right _ ht
  have := h t hmem
  rw [Place.offset_after]
  rw [List.length_append] at this
  omega

/-- Of two texts with which a text begins, the shorter is the beginning of the longer. -/
theorem exists_append_of_le {w r a b : Text} (h : w ++ r = a ++ b) (hle : w.length ≤ a.length) :
  ∃ a', a = w ++ a' ∧ r = a' ++ b
  := by
  obtain ⟨a', rfl⟩ := List.prefix_of_prefix_length_le ⟨r, h⟩ (List.prefix_append a b) hle
  rw [List.append_assoc] at h
  exact ⟨a', rfl, List.append_cancel_left h⟩

/-- A token that begins before a seam ends before it, if none stands across. -/
theorem Between.length_le {p : Place} {k : TokenKind} {u : CodeUnit} {v a b : Text}
    {xs : List Lexed} (h : Between p (u :: a) b)
    (hscan : Lexed.scan p (u :: a ++ b) = .token ⟨k, u :: v, p⟩ :: xs) :
  v.length ≤ a.length
  := by
  have hmem : ⟨k, u :: v, p⟩ ∈ Lexed.tokens (Lexed.scan p (u :: a ++ b)) := by
    rw [hscan]
    exact List.mem_cons_self
  have := h _ hmem
  simp only [List.length_cons] at this
  omega

/-- A text in whose seam no token stands is cut there. -/
theorem Lexes.cut {s : Text} {c : Bool} {ts : List Token} (h : Lexes s c ts) {p : Place}
    {a b : Text} (hs : s = a ++ b) (hp : Between p a b) :
  IsCut a b c ts
  := by
  induction h generalizing p a with
  | nil =>
    obtain ⟨rfl, rfl⟩ := List.append_eq_nil_iff.mp hs.symm
    exact isCut_nil .nil
  | @blank u r c ts hu h ih =>
    cases a with
    | nil =>
      cases hs
      exact isCut_nil (.blank hu h)
    | cons x a =>
      cases hs
      have hrest := hp.of_append (w := [u]) [] (Lexed.scan_blank hu p (a ++ b))
      exact (ih rfl hrest).blank hu
  | @opened v hv =>
    cases a with
    | nil =>
      cases hs
      exact isCut_nil (.opened hv)
    | cons x a =>
      cases hs
      obtain ⟨ha, hb⟩ := List.forall_mem_append.mp hv
      exact isCut_comment ha (.opened hb)
  | @comment v r u c ts hv hu h ih =>
    cases a with
    | nil =>
      cases hs
      exact isCut_nil (.comment hv hu h)
    | cons x a =>
      obtain ⟨rfl, hs'⟩ := List.cons.inj hs
      rcases List.append_eq_append_iff.mp hs' with ⟨a', rfl, ha'⟩ | ⟨y, rfl, rfl⟩
      · cases a' with
        | nil =>
          cases ha'
          rw [List.append_nil]
          exact isCut_comment hv (.comment (v := []) nofun hu h)
        | cons u' a' =>
          cases ha'
          have hscan := Lexed.scan_comment hv (r := u :: (a' ++ b)) (by simp [Text.Stops, hu]) p
          have hrest := hp.of_append (w := CodeUnit.ofChar '#' :: v) [] hscan
          exact (ih rfl hrest).comment hv hu
      · obtain ⟨ha, hy⟩ := List.forall_mem_append.mp hv
        exact isCut_comment ha (.comment hy hu h)
  | @token k u v r c ts hw hr h ih =>
    cases a with
    | nil =>
      cases hs
      exact isCut_nil (.token hw hr h)
    | cons x a =>
      obtain ⟨rfl, hs' : v ++ r = a ++ b⟩ := List.cons.inj hs
      have hscan := Lexed.scan_token hw hr p
      have hle : v.length ≤ a.length := by
        rw [hs] at hscan
        exact hp.length_le hscan
      obtain ⟨a', rfl, rfl⟩ := exists_append_of_le hs' hle
      have hrest := hp.of_append (w := u :: v) [.token ⟨k, u :: v, p⟩] hscan
      exact (ih rfl hrest).token hw hr

/-- What stands behind a seam can be exchanged for what is the same, also to a comment, and is as
little a part of the word before it. -/
theorem Lexes.replace {a b b' : Text} {c : Bool} {ts : List Token} (h : Lexes (a ++ b) c ts)
    {p : Place} (hp : Between p a b) (hlexes : ∀ {ts}, Lexes b c ts → Lexes b' c ts)
    (hcomment : ∀ {ts}, Lexes (CodeUnit.ofChar '#' :: b) c ts →
      Lexes (CodeUnit.ofChar '#' :: b') c ts)
    (hapart : Apart a b → Apart a b') :
  Lexes (a ++ b') c ts
  := by
  obtain ⟨c', ts', ts'', ha, hb, rfl⟩ := h.cut rfl hp
  apply ha.append
  cases hb with
  | afresh hab hb => exact .afresh (hapart hab) (hlexes hb)
  | comment hb => exact .comment (hcomment hb)

/-! ### Where no token stands across -/

/-- If a token stands across the seam of two texts, an end of the first and a beginning of the
second are its text. -/
theorem exists_across {a b : Text} (h : ¬ Between .start a b) :
  ∃ k x v y z, Lexeme.Consists (.token k) x v ∧ x :: v = y ++ z ∧ y ≠ [] ∧ z ≠ [] ∧ y <:+ a
    ∧ z <+: b
  := by
  simp only [Between, not_forall, not_or, not_le] at h
  obtain ⟨t, ht, hend, hbegin⟩ := h
  obtain ⟨s, hs, hst⟩ := List.mem_filterMap.mp ht
  obtain ⟨a', w, b', hcut, hstands⟩ := Lexed.exists_stands s hs
  cases hstands with
  | error => cases hst
  | @token k x v _ _ hconsists =>
    cases hst
    simp only [Place.offset_after, Place.start, Nat.zero_add] at hend hbegin
    rw [List.append_assoc] at hcut
    obtain ⟨y, rfl, hrest⟩ := exists_append_of_le hcut.symm hbegin.le
    rw [List.length_append] at hend hbegin
    obtain ⟨z, hz, rfl⟩ := exists_append_of_le hrest.symm (by omega)
    rw [hz, List.length_append] at hend
    refine ⟨k, x, v, y, z, hconsists, hz, ?_, ?_, List.suffix_append a' y, List.prefix_append z b'⟩
    · rintro rfl
      simp at hbegin
    · rintro rfl
      simp at hend

/-- No token has a blank, or the sign of a comment. -/
theorem Lexeme.Consists.not_mem {k : TokenKind} {x u : CodeUnit} {v : Text}
    (h : Consists (.token k) x v) (hu : isBlank u = true ∨ u = CodeUnit.ofChar '#') :
  u ∉ x :: v
  := by
  have hplain : ¬ IsPlain u := by
    intro hplain
    rcases hu with hu | hu
    · rw [hplain.blank] at hu
      cases hu
    · exact hplain.comment hu
  have hends : u ∉ [Text.carriageReturn, Text.lineFeed] := by
    simp only [List.mem_cons, List.not_mem_nil, or_false]
    rintro (rfl | rfl)
    · rcases hu with hu | hu <;> cases hu
    · rcases hu with hu | hu <;> cases hu
  intro hmem
  cases h with
  | lineFeed => exact hends (List.mem_cons_of_mem _ hmem)
  | lineEnd => exact hends hmem
  | word hx hv =>
    apply hplain
    rcases List.mem_cons.mp hmem with rfl | hmem
    · exact isPlain_of_isWordStart hx
    · exact isPlain_of_isWordPart (hv u hmem)
  | colon =>
    cases List.mem_singleton.mp hmem
    rcases hu with hu | hu <;> cases hu
  | integer hx hv =>
    rcases List.mem_cons.mp hmem with rfl | hmem
    · rcases hx with rfl | hx
      · rcases hu with hu | hu <;> cases hu
      · exact hplain (isPlain_of_isDigit hx)
    · exact hplain (isPlain_of_isDigit (hv u hmem))

section

variable {a b : Text}

/-- No token stands across a seam behind which is a blank or a comment. -/
theorem between_of_not_mem {u : CodeUnit}
    (hu : Lexeme.isBlank u = true ∨ u = CodeUnit.ofChar '#') :
  Between .start a (u :: b)
  := by
  by_contra hacross
  obtain ⟨k, x, v, y, z, hconsists, hyz, -, hz, -, hprefix⟩ := exists_across hacross
  apply hconsists.not_mem hu
  obtain ⟨u', z, rfl⟩ := List.exists_cons_of_ne_nil hz
  obtain ⟨rfl, -⟩ := List.cons_prefix_cons.mp hprefix
  rw [hyz]
  simp

/-- No token stands across a seam before a line feed, unless a carriage return is before it. -/
theorem between_lineFeed (ha : a.getLast? ≠ some Text.carriageReturn) :
  Between .start a (Text.lineFeed :: b)
  := by
  by_contra hacross
  obtain ⟨k, x, v, y, z, hconsists, hyz, hy, hz, ⟨a', rfl⟩, hprefix⟩ := exists_across hacross
  obtain ⟨u', z, rfl⟩ := List.exists_cons_of_ne_nil hz
  obtain ⟨rfl, -⟩ := List.cons_prefix_cons.mp hprefix
  have hnewline : Lexeme.token k = .token .newline := by
    by_contra hk
    apply hconsists.lineFeed_not_mem hk
    rw [hyz]
    simp
  have hy' : y = [Text.carriageReturn] := by
    obtain ⟨u, y, rfl⟩ := List.exists_cons_of_ne_nil hy
    rcases hconsists.of_newline hnewline with heq | heq
    · rw [heq] at hyz
      simp at hyz
    · rw [heq] at hyz
      cases y with
      | nil =>
        cases hyz
        rfl
      | cons u' y => simp at hyz
  apply ha
  rw [hy']
  exact List.getLast?_concat

/-- No token stands across a seam at the beginning of a line. -/
theorem between_of_endsLine (ha : Text.EndsLine a) :
  Between .start a b
  := by
  by_contra hacross
  obtain ⟨k, x, v, y, z, hconsists, hyz, hy, hz, ⟨a', rfl⟩, -⟩ := exists_across hacross
  apply hconsists.lineFeed_not_mem_dropLast
  rw [hyz, List.dropLast_append_of_ne_nil hz]
  apply List.mem_append_left
  rcases ha.of_append with hnil | hlast
  · cases hy hnil
  · exact List.mem_of_getLast? hlast

end

end Assembly

end StackMachine
