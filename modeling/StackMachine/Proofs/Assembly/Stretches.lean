import StackMachine.Proofs.Assembly.Grammar
import StackMachine.Proofs.Text.Lines

/-!
# Stretches of a text

Tokens and errors stand where their places say: the place of each is the one behind the text
before it, unit by unit.  A line feed is the end of a token that ends a line and stands nowhere
else among them, so that the line of a place is told by the tokens before it.
-/

namespace StackMachine

namespace Assembly

/-! ### Places -/

namespace Place

/-- The place behind a text that begins at a place: a line feed leads to the next line, any other
unit to the next column. -/
def after (p : Place) (t : Text) : Place :=
  t.foldl (fun q u => if u = Text.lineFeed then q.nextLine 1 else q.advance 1) p

theorem after_append (p : Place) (s t : Text) :
  p.after (s ++ t) = (p.after s).after t
  := List.foldl_append

theorem after_cons (p : Place) (u : CodeUnit) (t : Text) :
  p.after (u :: t) = (if u = Text.lineFeed then p.nextLine 1 else p.advance 1).after t
  := rfl

theorem advance_advance (p : Place) (m n : Nat) :
  (p.advance m).advance n = p.advance (m + n)
  := by
  rw [advance, advance, advance, mk.injEq]
  exact ⟨Nat.add_assoc _ m n, rfl, Nat.add_assoc _ m n⟩

/-- Behind units that are no line feeds the line is the same. -/
theorem after_of_not_mem {t : Text} (h : Text.lineFeed ∉ t) (p : Place) :
  p.after t = p.advance t.length
  := by
  induction t generalizing p with
  | nil => rfl
  | cons u t ih =>
    obtain ⟨hu, ht⟩ := not_or.mp (mt List.mem_cons.mpr h)
    rw [after_cons, if_neg (Ne.symm hu), ih ht, advance_advance, Nat.add_comm, List.length_cons]

theorem offset_after (p : Place) (t : Text) :
  (p.after t).offset = p.offset + t.length
  := by
  induction t generalizing p with
  | nil => rfl
  | cons u t ih =>
    have hone : (if u = Text.lineFeed then p.nextLine 1 else p.advance 1).offset
        = p.offset + 1 := by
      split <;> rfl
    rw [after_cons, ih, hone, List.length_cons]
    omega

theorem line_after (p : Place) (t : Text) :
  (p.after t).line = p.line + t.count Text.lineFeed
  := by
  induction t generalizing p with
  | nil => rfl
  | cons u t ih =>
    rw [after_cons, ih]
    split
    · next hu =>
      rw [hu, List.count_cons_self]
      simp only [nextLine]
      omega
    · next hu =>
      rw [List.count_cons_of_ne hu]
      rfl

/-- Behind a line feed the columns begin anew. -/
theorem column_after {t : Text} (h : Text.EndsLine t) :
  (start.after t).column = 1
  := by
  rcases h with rfl | h
  · rfl
  · obtain ⟨s, rfl⟩ := List.getLast?_eq_some_iff.mp h
    rw [after_append]
    rfl

end Place

/-! ### Lexemes -/

namespace Lexeme

theorem length_takeWhile_le (P : CodeUnit → Bool) (r : Text) :
  (r.takeWhile P).length ≤ r.length
  := (List.takeWhile_prefix P).length_le

theorem le_of_unsigned? {s : Text} {n : Nat} (h : unsigned? s = some n) :
  n ≤ s.length
  := by
  cases s with
  | nil => cases h
  | cons d r =>
    simp only [unsigned?] at h
    generalize hlength : (if d = CodeUnit.ofChar '0' then 0
      else (r.takeWhile CodeUnit.isDigit).length) = m at h
    have hle : m ≤ r.length := by
      rw [← hlength]
      split
      · apply Nat.zero_le
      · apply length_takeWhile_le
    split at h
    · split at h
      · cases h
      · cases h
        apply Nat.succ_le_succ hle
    · cases h

/-- The units that belong to a lexeme are there. -/
theorem le_of_ofText? {u : CodeUnit} {r : Text} {x : Lexeme} {n : Nat}
    (h : ofText? u r = some (x, n)) :
  n ≤ r.length
  := by
  rw [ofText?] at h
  split at h
  · cases h
    apply length_takeWhile_le
  · split at h
    · cases h
      apply Nat.zero_le
    · split at h
      · next hu =>
        cases h
        obtain ⟨r', rfl⟩ := List.head?_eq_some_iff.mp hu.2
        apply Nat.succ_le_succ (Nat.zero_le _)
      · split at h
        · cases h
          apply length_takeWhile_le
        · split at h
          · cases h
            apply length_takeWhile_le
          · split at h
            · cases h
              apply Nat.zero_le
            · obtain ⟨k, hk, hmap⟩ := Option.map_eq_some_iff.mp h
              cases hmap
              rw [integer?] at hk
              split at hk
              · apply le_of_unsigned? hk
              · obtain ⟨m, hm, rfl⟩ := Option.map_eq_some_iff.mp hk
                have := le_of_unsigned? hm
                rw [List.length_cons] at this
                omega

theorem wordKind_ne_newline (word : Text) :
  wordKind word ≠ .newline
  := by
  rw [wordKind]
  split <;> rintro ⟨⟩

/-- The line feed is not among units of a class to which it does not belong. -/
theorem lineFeed_not_mem {P : CodeUnit → Bool} {u : CodeUnit} {v : Text} (hu : P u = true)
    (hv : ∀ x ∈ v, P x = true) (hP : P Text.lineFeed = false) :
  Text.lineFeed ∉ u :: v
  := by
  intro hmem
  have hfeed : P Text.lineFeed = true := by
    rcases List.mem_cons.mp hmem with heq | hmem
    · rwa [heq]
    · apply hv _ hmem
  rw [hP] at hfeed
  cases hfeed

section

variable {x : Lexeme} {u : CodeUnit} {v : Text} (h : Consists x u v)

include h in
/-- A lexeme that ends a line is a line feed, perhaps after a carriage return. -/
theorem Consists.of_newline (hx : x = token .newline) :
  u :: v = [Text.lineFeed] ∨ u :: v = [Text.carriageReturn, Text.lineFeed]
  := by
  cases h with
  | lineFeed => exact .inl rfl
  | lineEnd => exact .inr rfl
  | word =>
    injection hx with hkind
    cases wordKind_ne_newline _ hkind
  | blank | comment | colon | integer => cases hx

include h in
/-- Only a line end has a line feed. -/
theorem Consists.lineFeed_not_mem (hx : x ≠ token .newline) :
  Text.lineFeed ∉ u :: v
  := by
  cases h with
  | blank hu hv => apply Lexeme.lineFeed_not_mem hu hv rfl
  | lineFeed => cases hx rfl
  | lineEnd => cases hx rfl
  | comment hv =>
    apply Lexeme.lineFeed_not_mem (P := fun x => !isLineEnd x) rfl _ rfl
    intro x hx
    rw [hv x hx]
    rfl
  | word hu hv =>
    apply Lexeme.lineFeed_not_mem (P := CodeUnit.isWordPart) _ hv rfl
    rw [CodeUnit.isWordPart, hu, Bool.true_or]
  | colon => decide
  | integer hu hv =>
    apply Lexeme.lineFeed_not_mem
      (P := fun x => x == CodeUnit.ofChar '-' || x.isDigit) _ _ rfl
    · rcases hu with rfl | hu
      · rfl
      · rw [hu, Bool.or_true]
    · intro x hx
      rw [hv x hx, Bool.or_true]

include h in
/-- The line feed of a line end is its last unit. -/
theorem Consists.lineFeed_not_mem_dropLast :
  Text.lineFeed ∉ (u :: v).dropLast
  := by
  by_cases hx : x = token .newline
  · rcases h.of_newline hx with heq | heq
    · rw [heq]
      decide
    · rw [heq]
      decide
  · intro hmem
    apply h.lineFeed_not_mem hx (List.dropLast_subset _ hmem)

include h in
/-- A lexeme has as many line feeds as it ends lines. -/
theorem Consists.count_lineFeed :
  (u :: v).count Text.lineFeed = if x = token .newline then 1 else 0
  := by
  split
  · next hx =>
    rcases h.of_newline hx with heq | heq
    · rw [heq]
      rfl
    · rw [heq]
      rfl
  · next hx => apply List.count_eq_zero.mpr (h.lineFeed_not_mem hx)

include h in
/-- The place after a lexeme is the one behind its units. -/
theorem Consists.placeAfter (p : Place) :
  x.placeAfter p (v.length + 1) = p.after (u :: v)
  := by
  by_cases hx : x = token .newline
  · rw [Lexeme.placeAfter, if_pos hx, ← List.length_cons (a := u)]
    rcases h.of_newline hx with heq | heq
    · rw [heq]
      rfl
    · rw [heq]
      rfl
  · rw [Lexeme.placeAfter, if_neg hx, Place.after_of_not_mem (h.lineFeed_not_mem hx),
      List.length_cons]

end

/-! ### Units that begin nothing -/

/-- Something begins at the head of a text. -/
def Begins (s : Text) : Prop := ∃ u r, s = u :: r ∧ (ofText? u r).isSome = true

theorem begins_cons {u : CodeUnit} {r : Text} :
  Begins (u :: r) ↔ (ofText? u r).isSome = true
  := by
  constructor
  · rintro ⟨u', r', h, hsome⟩
    cases h
    exact hsome
  · intro hsome
    exact ⟨u, r, rfl, hsome⟩

/-- Units that are skipped together before a rest: nothing begins at any of them, and something
begins at the rest, if there is any. -/
structure Skips (w rest : Text) : Prop where
  nothing : ∀ v, v <:+ w → v ≠ [] → ¬ Begins (v ++ rest)
  stops : rest ≠ [] → Begins rest

theorem Skips.cons {u : CodeUnit} {w rest : Text} (h : Skips w rest)
    (hu : ¬ Begins (u :: (w ++ rest))) :
  Skips (u :: w) rest
  := by
  constructor
  · intro v hv hne
    rcases List.suffix_cons_iff.mp hv with rfl | hv
    · apply hu
    · apply h.nothing v hv hne
  · apply h.stops

/-- The units before one that begins something are skipped together. -/
theorem skips_junk (r : Text) :
  Skips (r.take (junk r)) (r.drop (junk r))
  := by
  induction r with
  | nil =>
    constructor
    · intro v hv hne
      cases hne (List.suffix_nil.mp hv)
    · intro hne
      cases hne rfl
  | cons u r ih =>
    rw [junk]
    split
    · next hsome =>
      constructor
      · intro v hv hne
        cases hne (List.suffix_nil.mp hv)
      · intro _
        apply begins_cons.mpr hsome
    · next hnone =>
      rw [List.take_succ_cons, List.drop_succ_cons]
      apply ih.cons
      rwa [List.take_append_drop, begins_cons]

theorem length_junk (r : Text) :
  junk r ≤ r.length
  := by
  induction r with
  | nil => apply Nat.le_refl
  | cons u r ih =>
    rw [junk]
    split
    · apply Nat.zero_le
    · apply Nat.succ_le_succ ih

/-- A line feed is never skipped. -/
theorem Skips.lineFeed_not_mem {w rest : Text} (h : Skips w rest) :
  Text.lineFeed ∉ w
  := by
  intro hmem
  obtain ⟨a, b, rfl⟩ := List.append_of_mem hmem
  apply h.nothing (Text.lineFeed :: b) (List.suffix_append a _) (List.cons_ne_nil _ _)
  apply begins_cons.mpr
  rfl

end Lexeme

/-! ### What scanning yields -/

namespace Lexed

/-- What scanning yields for units at a place, before a rest. -/
inductive Stands : Lexed → Place → Text → Text → Prop where
  | token {kind : TokenKind} {u : CodeUnit} {v rest : Text} {q : Place}
    (h : Lexeme.Consists (.token kind) u v) :
    Stands (.token ⟨kind, u :: v, q⟩) q (u :: v) rest
  | error {u : CodeUnit} {w rest : Text} {q : Place} (h : Lexeme.Skips (u :: w) rest) :
    Stands (.error ⟨u, q, (u :: w).length⟩) q (u :: w) rest

theorem Stands.ne_nil {y : Lexed} {q : Place} {w rest : Text} (h : y.Stands q w rest) :
  w ≠ []
  := by
  cases h <;> apply List.cons_ne_nil

/-- Only the last unit of what scanning yields may be a line feed. -/
theorem Stands.lineFeed_not_mem_dropLast {y : Lexed} {q : Place} {w rest : Text}
    (h : y.Stands q w rest) :
  Text.lineFeed ∉ w.dropLast
  := by
  cases h with
  | token h => apply h.lineFeed_not_mem_dropLast
  | error h =>
    intro hmem
    apply h.lineFeed_not_mem (List.dropLast_subset _ hmem)

/-- A text is cut behind its first lexeme. -/
theorem cut_of_ofText? {u : CodeUnit} {r : Text} {x : Lexeme} {n : Nat}
    (h : Lexeme.ofText? u r = some (x, n)) (p : Place) :
  u :: r = (u :: r.take n) ++ r.drop n ∧ x.placeAfter p (n + 1) = p.after (u :: r.take n)
  := by
  constructor
  · rw [List.cons_append, List.take_append_drop]
  · rw [← (Lexeme.consists_of_ofText? h).placeAfter p,
      List.length_take_of_le (Lexeme.le_of_ofText? h)]

/-- A text is cut behind the units at its head that begin nothing. -/
theorem cut_of_ofText?_none {u : CodeUnit} {r : Text} (h : Lexeme.ofText? u r = none)
    (p : Place) :
  u :: r = (u :: r.take (Lexeme.junk r)) ++ r.drop (Lexeme.junk r)
    ∧ p.advance (Lexeme.junk r + 1) = p.after (u :: r.take (Lexeme.junk r))
    ∧ Lexeme.Skips (u :: r.take (Lexeme.junk r)) (r.drop (Lexeme.junk r))
  := by
  have hskips : Lexeme.Skips (u :: r.take (Lexeme.junk r)) (r.drop (Lexeme.junk r)) := by
    apply (Lexeme.skips_junk r).cons
    rw [List.take_append_drop, Lexeme.begins_cons, h]
    apply Bool.false_ne_true
  refine ⟨?_, ?_, hskips⟩
  · rw [List.cons_append, List.take_append_drop]
  · rw [Place.after_of_not_mem hskips.lineFeed_not_mem, List.length_cons,
      List.length_take_of_le (Lexeme.length_junk r)]

/-- What scanning yields behind a text is what it yields for the whole. -/
theorem exists_stands_of_cut {y : Lexed} {p p' : Place} {s w rest : Text} (hs : s = w ++ rest)
    (hp : p' = p.after w)
    (h : ∃ a v b, rest = a ++ v ++ b ∧ y.Stands (p'.after a) v b) :
  ∃ a v b, s = a ++ v ++ b ∧ y.Stands (p.after a) v b
  := by
  obtain ⟨a, v, b, rfl, hstands⟩ := h
  refine ⟨w ++ a, v, b, ?_, ?_⟩
  · rw [hs, List.append_assoc, List.append_assoc, List.append_assoc]
  · rwa [Place.after_append, ← hp]

/-- What scanning yields stands in the text, at its place. -/
theorem exists_stands {p : Place} {s : Text} :
  ∀ y ∈ scan p s, ∃ a v b, s = a ++ v ++ b ∧ y.Stands (p.after a) v b
  := by
  intro y hy
  fun_induction scan p s with
  | case1 => cases hy
  | case2 p u r n kind h rest ih =>
    obtain ⟨hcut, hplace⟩ := cut_of_ofText? h p
    rcases List.mem_cons.mp hy with rfl | hy
    · exact ⟨[], _, _, hcut, .token (Lexeme.consists_of_ofText? h)⟩
    · apply exists_stands_of_cut hcut hplace (ih hy)
  | case3 p u r x n h rest _ ih =>
    obtain ⟨hcut, hplace⟩ := cut_of_ofText? h p
    apply exists_stands_of_cut hcut hplace (ih hy)
  | case4 p u r h n ih =>
    obtain ⟨hcut, hplace, hskips⟩ := cut_of_ofText?_none h p
    rcases List.mem_cons.mp hy with rfl | hy
    · refine ⟨[], _, _, hcut, ?_⟩
      have hstands := Stands.error (q := p) hskips
      rwa [List.length_cons, List.length_take_of_le (Lexeme.length_junk r)] at hstands
    · apply exists_stands_of_cut hcut hplace (ih hy)

/-! ### Line ends -/

/-- There are as many line ends among the tokens of a text as line feeds in it. -/
theorem countP_endsLine (p : Place) (s : Text) :
  (tokens (scan p s)).countP Token.endsLine = s.count Text.lineFeed
  := by
  fun_induction scan p s with
  | case1 => rfl
  | case2 p u r n kind h rest ih =>
    obtain ⟨hcut, -⟩ := cut_of_ofText? h p
    rw [hcut, List.count_append, (Lexeme.consists_of_ofText? h).count_lineFeed, ← ih]
    change (Token.mk kind _ p :: tokens rest).countP _ = _
    rw [List.countP_cons, Nat.add_comm]
    congr 1
    by_cases hkind : kind = .newline
    · simp [Token.endsLine, hkind]
    · simp [Token.endsLine, hkind]
  | case3 p u r x n h rest hx ih =>
    obtain ⟨hcut, -⟩ := cut_of_ofText? h p
    rw [hcut, List.count_append, (Lexeme.consists_of_ofText? h).count_lineFeed, if_neg (hx _),
      Nat.zero_add]
    apply ih
  | case4 p u r h n ih =>
    obtain ⟨hcut, -, hskips⟩ := cut_of_ofText?_none h p
    rw [hcut, List.count_append, List.count_eq_zero.mpr hskips.lineFeed_not_mem, Nat.zero_add]
    apply ih

/-- The line of a token is told by the line ends before it. -/
theorem line_of_tokens {p : Place} {s : Text} {t : Token} {after : List Token} :
  ∀ before, tokens (scan p s) = before ++ t :: after →
    t.place.line = p.line + before.countP Token.endsLine
  := by
  fun_induction scan p s with
  | case1 => simp [tokens]
  | case2 p u r n kind h rest ih =>
    intro before hts
    change Token.mk kind _ p :: tokens rest = _ at hts
    cases before with
    | nil =>
      cases hts
      rfl
    | cons t' before =>
      obtain ⟨rfl, hrest⟩ := List.cons.inj hts
      rw [ih before hrest, Lexeme.placeAfter, List.countP_cons]
      by_cases hkind : kind = .newline
      · simp [Token.endsLine, hkind, Place.nextLine]
        omega
      · simp [Token.endsLine, hkind, Place.advance]
  | case3 p u r x n h rest hx ih =>
    intro before hts
    rw [ih before hts, Lexeme.placeAfter, if_neg (hx _)]
    rfl
  | case4 p u r h n ih =>
    intro before hts
    rw [ih before hts]
    rfl

/-- A text that ends with a line feed does so behind its first units, or nothing is behind them and
there is a line feed among them. -/
theorem getLast?_of_cut {s w rest : Text} (hcut : s = w ++ rest)
    (hs : s.getLast? = some Text.lineFeed) :
  rest.getLast? = some Text.lineFeed ∨ rest = [] ∧ Text.lineFeed ∈ w
  := by
  rw [hcut, List.getLast?_append, Option.or_eq_some_iff] at hs
  rcases hs with hrest | ⟨hnone, hlast⟩
  · exact .inl hrest
  · exact .inr ⟨List.getLast?_eq_none_iff.mp hnone, List.mem_of_getLast? hlast⟩

/-- The tokens of a text that ends with a line feed end with a line end. -/
theorem exists_endsLine {p : Place} {s : Text} (hs : s.getLast? = some Text.lineFeed) :
  ∃ ts t, tokens (scan p s) = ts ++ [t] ∧ t.endsLine = true
  := by
  fun_induction scan p s with
  | case1 => cases hs
  | case2 p u r n kind h rest ih =>
    obtain ⟨hcut, -⟩ := cut_of_ofText? h p
    change ∃ ts t, Token.mk kind _ p :: tokens rest = ts ++ [t] ∧ _
    rcases getLast?_of_cut hcut hs with hrest | ⟨hrest, hmem⟩
    · obtain ⟨ts, t, hts, ht⟩ := ih hrest
      rw [hts]
      exact ⟨_ :: ts, t, rfl, ht⟩
    · have hkind : kind = .newline := by
        by_contra hkind
        apply (Lexeme.consists_of_ofText? h).lineFeed_not_mem _ hmem
        rintro ⟨⟩
        cases hkind rfl
      have hnil : tokens rest = [] := by
        simp only [rest, hrest, scan]
        rfl
      rw [hnil, hkind]
      exact ⟨[], _, rfl, rfl⟩
  | case3 p u r x n h rest hx ih =>
    obtain ⟨hcut, -⟩ := cut_of_ofText? h p
    rcases getLast?_of_cut hcut hs with hrest | ⟨-, hmem⟩
    · apply ih hrest
    · cases (Lexeme.consists_of_ofText? h).lineFeed_not_mem (hx _) hmem
  | case4 p u r h n ih =>
    obtain ⟨hcut, -, hskips⟩ := cut_of_ofText?_none h p
    rcases getLast?_of_cut hcut hs with hrest | ⟨-, hmem⟩
    · apply ih hrest
    · cases hskips.lineFeed_not_mem hmem

end Lexed

theorem getLast?_terminated (source : Text) :
  (terminated source).getLast? = some Text.lineFeed
  := by
  rw [terminated]
  split
  · next hends => exact hends
  · exact List.getLast?_concat

end Assembly

end StackMachine
