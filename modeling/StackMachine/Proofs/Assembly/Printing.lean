import StackMachine.Proofs.Assembly.Patterns
import StackMachine.Proofs.Assembly.Reading

/-!
# Printing tokens

Texts of tokens with a blank between neighbours scan as these tokens, whatever they are.  The blanks
keep words and integers apart, so that no token goes on into the next.
-/

namespace StackMachine

namespace Assembly

/-- The texts in which tokens of a kind are written. -/
inductive TokenKind.Writes : TokenKind → Text → Prop where
  | mnemonic (o : Opcode) : Writes (.mnemonic o) o.mnemonic
  | identifier {w : Text} (hw : w.IsWord) (hne : ∀ o : Opcode, w ≠ o.mnemonic) :
    Writes .identifier w
  | natural {w : Text} (hw : w.IsNatural) : Writes .integer w
  | negative {w : Text} (hw : w.IsNatural) : Writes .integer (CodeUnit.ofChar '-' :: w)
  | colon : Writes .colon [CodeUnit.ofChar ':']
  | lineFeed : Writes .newline [Text.lineFeed]
  | lineEnd : Writes .newline [Text.carriageReturn, Text.lineFeed]

theorem isNatural_ofNat (n : Nat) :
  (Text.ofNat n).IsNatural
  := by
  obtain ⟨hne, hzero⟩ := Text.head?_ofNat n
  have hdigits := Text.isDigit_of_mem_ofNat (n := n)
  cases ht : Text.ofNat n with
  | nil => cases hne ht
  | cons d v =>
    rw [ht] at hdigits hzero
    refine ⟨hdigits, ?_⟩
    rintro rfl
    cases hzero rfl
    cases ht
    rfl

/-- A word is read as a mnemonic if it is the whole of one. -/
theorem wordKind_eq_mnemonic_iff {w : Text} {o : Opcode} :
  Lexeme.wordKind w = .mnemonic o ↔ w = o.mnemonic
  := by
  constructor
  · intro h
    rw [Lexeme.wordKind] at h
    split at h
    · next hname =>
      cases h
      exact (Opcode.mnemonic_of_ofMnemonic? hname).symm
    · cases h
  · rintro rfl
    apply wordKind_mnemonic

/-- A word is read as an identifier if it is no mnemonic. -/
theorem wordKind_eq_identifier_iff {w : Text} :
  Lexeme.wordKind w = .identifier ↔ ∀ o : Opcode, w ≠ o.mnemonic
  := by
  constructor
  · intro h o hw
    rw [wordKind_eq_mnemonic_iff.mpr hw] at h
    cases h
  · intro h
    rw [Lexeme.wordKind]
    split
    · next o hname => cases h o (Opcode.mnemonic_of_ofMnemonic? hname).symm
    · rfl

theorem TokenKind.writes_identifier {w : Text} (hw : w.IsWord) (hnone : Opcode.ofMnemonic? w = none) :
  identifier.Writes w
  := by
  apply Writes.identifier hw
  rintro o rfl
  rw [Opcode.ofMnemonic?_mnemonic] at hnone
  cases hnone

theorem TokenKind.Writes.matches {k : TokenKind} {w : Text} (h : k.Writes w) :
  k.Matches w
  := by
  cases h with
  | mnemonic o =>
    rw [← wordKind_mnemonic o]
    exact .word o.isWord_mnemonic
  | identifier hw hne =>
    rw [← wordKind_eq_identifier_iff.mpr hne]
    exact .word hw
  | natural hw => exact .natural hw
  | negative hw => exact .negative hw
  | colon => exact .colon
  | lineFeed => exact .lineFeed
  | lineEnd => exact .lineEnd

/-- The text of a token scans as the token before what does not continue it. -/
theorem TokenKind.Matches.scans {k : TokenKind} {w rest : Text} (h : k.Matches w)
    (hrest : Apart w rest) :
  Scans w rest [.bare k w]
  := by
  cases w with
  | nil =>
    generalize hw : ([] : Text) = w at h
    cases h with
    | word h | natural h =>
      rw [← hw] at h
      cases h
    | _ => cases hw
  | cons u v => exact scans_token (h.ofText? hrest)

/-- A blank scans as no token, whatever is behind it. -/
theorem scans_space (rest : Text) :
  Scans [0x20] rest []
  := fun p => ⟨[], p.after [0x20], Lexed.scan_blank rfl p rest, rfl⟩

/-- Texts of tokens with a blank between neighbours scan as the tokens. -/
theorem scans_join {ts : List (TokenKind × Text)} (hts : ∀ t ∈ ts, t.1.Writes t.2) :
  Scans (Text.join [0x20] (ts.map Prod.snd)) [] (ts.map fun t => .bare t.1 t.2)
  := by
  induction ts with
  | nil => apply scans_nil
  | cons t ts ih =>
    obtain ⟨ht, hts⟩ := List.forall_mem_cons.mp hts
    cases ts with
    | nil =>
      rw [List.map_singleton, Text.join, List.intercalate_singleton]
      exact ht.matches.scans (.inr rfl)
    | cons t' ts =>
      have hfirst (r : Text) : Scans t.2 ([0x20] ++ r ++ []) [.bare t.1 t.2] :=
        ht.matches.scans (.inr rfl)
      have hrest := (scans_space _).append (ih hts)
      rw [List.map_cons, List.map_cons, Text.join, List.intercalate_cons_cons, List.append_assoc]
      exact (hfirst _).append hrest

/-- Texts of tokens with a blank between neighbours scan without errors as the tokens that were
written.  The table of patterns tells the same as scanning, and by it a word that is not continued is
a mnemonic just if it is the whole of one, and an identifier if it is the whole of none. -/
theorem scan_join_images {ts : List (TokenKind × Text)} (hts : ∀ t ∈ ts, t.1.Writes t.2) :
  Lexed.errors (Lexed.scan .start (Text.join [0x20] (ts.map Prod.snd))) = []
    ∧ (Lexed.tokens (Lexed.scan .start (Text.join [0x20] (ts.map Prod.snd)))).map
        (fun t => (t.kind, t.image)) = ts
    ∧ (∀ u r, Rule.first? Rule.table (u :: r)
        = (Lexeme.ofText? u r).map fun x => (x.1, x.2 + 1))
    ∧ ∀ w rest, w.IsWord → Text.Stops CodeUnit.isWordPart rest →
        ∃ k, Rule.first? Rule.table (w ++ rest) = some (.token k, w.length)
          ∧ (∀ o : Opcode, k = .mnemonic o ↔ w = o.mnemonic)
          ∧ (k = .identifier ↔ ∀ o : Opcode, w ≠ o.mnemonic)
  := by
  obtain ⟨us, q, hscan, hus⟩ := scans_join hts .start
  rw [List.append_nil, Lexed.scan, List.append_nil] at hscan
  rw [hscan, errors_map_token, tokens_map_token]
  refine ⟨rfl, ?_, Rule.first?_table, ?_⟩
  · have hpair := congrArg (List.map fun t : Token => (t.kind, t.image)) hus
    rw [List.map_map, List.map_map] at hpair
    exact hpair.trans (List.map_id ts)
  · intro w rest hw hrest
    exact ⟨_, Rule.first?_word hw hrest, fun o => wordKind_eq_mnemonic_iff,
      wordKind_eq_identifier_iff⟩

/-- Mnemonics that begin others, and words that begin with them, among integers and line ends. -/
def overlapping : List (TokenKind × Text) :=
  [(.mnemonic .jumpz, "jumpz"), (.mnemonic .jump, "jump"), (.identifier, "jumpzz"), (.colon, ":"),
    (.newline, [Text.carriageReturn, Text.lineFeed]), (.mnemonic .loadc, "loadc"),
    (.integer, "-0"), (.newline, [Text.lineFeed]), (.identifier, "loadcx"),
    (.mnemonic (.binary .neq), "neq"), (.mnemonic .new, "new"), (.identifier, "order"),
    (.mnemonic (.binary .or), "or"), (.integer, "10")]

theorem scan_join_images_overlapping :
  (∀ t ∈ overlapping, t.1.Writes t.2)
    ∧ Lexed.errors (Lexed.scan .start
        "jumpz jump jumpzz : \r\n loadc -0 \n loadcx neq new order or 10") = []
    ∧ (Lexed.tokens (Lexed.scan .start
        "jumpz jump jumpzz : \r\n loadc -0 \n loadcx neq new order or 10")).map
          (fun t => (t.kind, t.image)) = overlapping
  := by
  have hts : ∀ t ∈ overlapping, t.1.Writes t.2 := by
    simp only [overlapping, List.forall_mem_cons]
    exact ⟨.mnemonic .jumpz, .mnemonic .jump,
      TokenKind.writes_identifier (by decide) (by decide), .colon, .lineEnd, .mnemonic .loadc,
      .negative (isNatural_ofNat 0), .lineFeed,
      TokenKind.writes_identifier (by decide) (by decide), .mnemonic (.binary .neq),
      .mnemonic .new, TokenKind.writes_identifier (by decide) (by decide),
      .mnemonic (.binary .or), .natural (isNatural_ofNat 10), nofun⟩
  obtain ⟨herrors, htokens, -⟩ := scan_join_images hts
  exact ⟨hts, herrors, htokens⟩

end Assembly

end StackMachine
