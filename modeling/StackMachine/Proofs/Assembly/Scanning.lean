import StackMachine.Proofs.Assembly.Places
import StackMachine.Proofs.Text.Decimal

/-!
# Scanning

How words, integers, colons, line ends and blanks scan before other text.  What follows a
word or an integer decides where it ends, so each fact is about a text and the rest after it.
-/

namespace StackMachine

/-! ### Units -/

namespace CodeUnit

/-- A digit does not begin a word. -/
theorem isWordStart_of_isDigit {u : CodeUnit} (h : u.isDigit = true) :
  u.isWordStart = false
  := by
  simp only [isDigit, isWordStart, isLetter, Bool.and_eq_true, decide_eq_true_eq,
    UInt16.le_iff_toNat_le, Bool.or_eq_false_iff, Bool.and_eq_false_iff, decide_eq_false_iff_not,
    beq_eq_false_iff_ne, ne_eq, ← UInt16.toNat_inj] at h ⊢
  simp only [UInt16.reduceToNat] at h ⊢
  omega

theorem isWordPart_of_isDigit {u : CodeUnit} (h : u.isDigit = true) :
  u.isWordPart = true
  := by
  rw [isWordPart, h, Bool.or_true]

end CodeUnit

namespace Assembly

namespace Lexeme

/-! ### Lexemes -/

/-- A unit that begins neither blanks nor a line end nor a comment. -/
structure IsPlain (u : CodeUnit) : Prop where
  blank : isBlank u = false
  lineFeed : u ≠ Text.lineFeed
  carriageReturn : u ≠ Text.carriageReturn
  comment : u ≠ CodeUnit.ofChar '#'

/-- The units of a class to which no unit belongs that begins blanks, a line end or a
comment. -/
theorem isPlain_of_class {P : CodeUnit → Bool}
    (hP : ([0x20, 0x09, Text.lineFeed, Text.carriageReturn, CodeUnit.ofChar '#'].all
      fun v => !P v) = true) {u : CodeUnit} (hu : P u = true) :
  IsPlain u
  := by
  have hne : ∀ v ∈ [0x20, 0x09, Text.lineFeed, Text.carriageReturn, CodeUnit.ofChar '#'],
      u ≠ v := by
    rintro v hv rfl
    have := List.all_eq_true.mp hP u hv
    rw [hu] at this
    cases this
  constructor
  · rw [isBlank, Bool.or_eq_false_iff, beq_eq_false_iff_ne, beq_eq_false_iff_ne]
    constructor
    · apply hne
      simp
    · apply hne
      simp
  · apply hne
    simp
  · apply hne
    simp
  · apply hne
    simp

theorem isPlain_of_isWordStart {u : CodeUnit} (hu : u.isWordStart = true) :
  IsPlain u
  := isPlain_of_class (P := CodeUnit.isWordStart) (by decide) hu

theorem isPlain_of_isDigit {u : CodeUnit} (hu : u.isDigit = true) :
  IsPlain u
  := isPlain_of_class (P := CodeUnit.isDigit) (by decide) hu

theorem isPlain_of_isWordPart {u : CodeUnit} (hu : u.isWordPart = true) :
  IsPlain u
  := isPlain_of_class (P := CodeUnit.isWordPart) (by decide) hu

/-- Plain units begin words, colons and integers. -/
theorem IsPlain.ofText? {u : CodeUnit} (h : IsPlain u) (r : Text) :
  Lexeme.ofText? u r
    = if u.isWordStart then
        let n := (r.takeWhile CodeUnit.isWordPart).length
        some (token (wordKind (u :: r.take n)), n)
      else if u = CodeUnit.ofChar ':' then some (token .colon, 0)
      else (integer? u r).map fun n => (token .integer, n)
  := by
  rw [Lexeme.ofText?, h.blank, if_neg Bool.false_ne_true, if_neg h.lineFeed,
    if_neg fun hr => h.carriageReturn hr.1, if_neg h.comment]

/-- A word before a text that does not continue it. -/
theorem ofText?_word {u : CodeUnit} {v rest : Text} (hu : u.isWordStart = true)
    (hv : ∀ x ∈ v, x.isWordPart = true) (hrest : Text.Stops CodeUnit.isWordPart rest) :
  ofText? u (v ++ rest) = some (token (wordKind (u :: v)), v.length)
  := by
  rw [(isPlain_of_isWordStart hu).ofText?, if_pos hu, Text.takeWhile_append hv hrest]
  simp only [List.take_left]

theorem ofText?_colon (r : Text) :
  ofText? (CodeUnit.ofChar ':') r = some (token .colon, 0)
  := rfl

theorem ofText?_lineFeed (r : Text) :
  ofText? Text.lineFeed r = some (token .newline, 0)
  := rfl

/-- Blanks before a text that does not begin with one. -/
theorem ofText?_blank {u : CodeUnit} {v rest : Text} (hu : isBlank u = true)
    (hv : ∀ x ∈ v, isBlank x = true) (hrest : Text.Stops isBlank rest) :
  ofText? u (v ++ rest) = some (blank, v.length)
  := by
  rw [ofText?, if_pos hu, Text.takeWhile_append hv hrest]

/-- A minus sign begins an integer, if one without sign is behind it. -/
theorem ofText?_minus (r : Text) :
  ofText? (CodeUnit.ofChar '-') r = (unsigned? r).map fun n => (token .integer, n)
  := rfl

/-- A digit begins an integer. -/
theorem ofText?_digit {d : CodeUnit} (hd : d.isDigit = true) (r : Text) :
  ofText? d r = (unsigned? (d :: r)).map fun n => (token .integer, n - 1)
  := by
  have hne (c : CodeUnit) (hc : c.isDigit = false) : d ≠ c := by
    rintro rfl
    rw [hd] at hc
    cases hc
  rw [(isPlain_of_isDigit hd).ofText?, CodeUnit.isWordStart_of_isDigit hd,
    if_neg Bool.false_ne_true, if_neg (hne _ rfl), integer?, if_neg (hne _ rfl), Option.map_map]
  rfl

/-- A run of digits without a leading zero before a text that does not continue it. -/
theorem unsigned?_append {d : CodeUnit} {v rest : Text}
    (hdigits : ∀ x ∈ d :: v, x.isDigit = true) (hzero : d = CodeUnit.ofChar '0' → v = [])
    (hrest : Text.Stops CodeUnit.isWordPart rest) :
  unsigned? (d :: (v ++ rest)) = some (v.length + 1)
  := by
  have hd := hdigits d List.mem_cons_self
  have hv : ∀ x ∈ v, x.isDigit = true := fun x hx => hdigits x (List.mem_cons_of_mem d hx)
  have hstops : Text.Stops CodeUnit.isDigit rest := by
    cases rest with
    | nil => rfl
    | cons x rest =>
      have hx : x.isWordPart = false := hrest
      rw [CodeUnit.isWordPart, Bool.or_eq_false_iff] at hx
      apply hx.2
  have hlength : (if d = CodeUnit.ofChar '0' then 0
      else ((v ++ rest).takeWhile CodeUnit.isDigit).length) = v.length := by
    split
    · next h => rw [hzero h, List.length_nil]
    · rw [Text.takeWhile_append hv hstops]
  have hrest' : (rest.head?.any CodeUnit.isWordPart) = false := hrest
  simp only [unsigned?, hd, if_true, hlength, List.drop_left, hrest', Bool.false_eq_true,
    if_false]

/-- The decimal of a natural number before a text that does not continue it. -/
theorem unsigned?_ofNat (n : Nat) {rest : Text} (hrest : Text.Stops CodeUnit.isWordPart rest) :
  unsigned? (Text.ofNat n ++ rest) = some (Text.ofNat n).length
  := by
  obtain ⟨hne, hzero⟩ := Text.head?_ofNat n
  have hdigits := Text.isDigit_of_mem_ofNat (n := n)
  cases ht : Text.ofNat n with
  | nil => cases hne ht
  | cons d v =>
    rw [ht] at hdigits hzero
    apply unsigned?_append hdigits _ hrest
    rintro rfl
    have h0 := hzero rfl
    subst h0
    cases ht
    rfl

end Lexeme

/-! ### Tokens -/

/-- A token without a place. -/
def Token.bare (kind : TokenKind) (image : Text) : Token := ⟨kind, image, .start⟩

/-- Before a rest, a text scans as tokens, wherever they stand. -/
def Scans (text rest : Text) (ts : List Token) : Prop :=
  ∀ p, ∃ (us : List Token) (q : Place),
    Lexed.scan p (text ++ rest) = us.map .token ++ Lexed.scan q rest
      ∧ us.map Token.erase = ts

theorem scans_nil (rest : Text) :
  Scans [] rest []
  := by
  intro p
  exact ⟨[], p, rfl, rfl⟩

/-- A text scans as tokens before another one, and this one before the rest. -/
theorem Scans.append {t t' rest : Text} {ts ts' : List Token} (h : Scans t (t' ++ rest) ts)
    (h' : Scans t' rest ts') :
  Scans (t ++ t') rest (ts ++ ts')
  := by
  intro p
  obtain ⟨us, q, hus, hts⟩ := h p
  obtain ⟨us', q', hus', hts'⟩ := h' q
  use us ++ us', q'
  constructor
  · rw [List.append_assoc, hus, hus', List.map_append, List.append_assoc]
  · rw [List.map_append, hts, hts']

/-- A text that begins a token and belongs to it scans as the token. -/
theorem scans_token {u : CodeUnit} {v rest : Text} {kind : TokenKind}
    (h : Lexeme.ofText? u (v ++ rest) = some (.token kind, v.length)) :
  Scans (u :: v) rest [.bare kind (u :: v)]
  := by
  intro p
  refine ⟨[⟨kind, u :: v, p⟩], Lexeme.placeAfter (.token kind) p (v.length + 1), ?_, rfl⟩
  rw [List.cons_append, Lexed.scan, h]
  simp only [List.take_left, List.drop_left]
  rfl

/-- Blanks scan as no tokens. -/
theorem scans_blank {u : CodeUnit} {v rest : Text} (hu : Lexeme.isBlank u = true)
    (hv : ∀ x ∈ v, Lexeme.isBlank x = true) (hrest : Text.Stops Lexeme.isBlank rest) :
  Scans (u :: v) rest []
  := by
  intro p
  refine ⟨[], Lexeme.placeAfter .blank p (v.length + 1), ?_, rfl⟩
  rw [List.cons_append, Lexed.scan, Lexeme.ofText?_blank hu hv hrest]
  simp only [List.drop_left]
  rfl

/-- A word scans as one token. -/
theorem scans_word {u : CodeUnit} {v rest : Text} (hu : u.isWordStart = true)
    (hv : ∀ x ∈ v, x.isWordPart = true) (hrest : Text.Stops CodeUnit.isWordPart rest) :
  Scans (u :: v) rest [.bare (Lexeme.wordKind (u :: v)) (u :: v)]
  := scans_token (Lexeme.ofText?_word hu hv hrest)

theorem scans_colon (rest : Text) :
  Scans [CodeUnit.ofChar ':'] rest [.bare .colon [CodeUnit.ofChar ':']]
  := scans_token (v := []) (Lexeme.ofText?_colon rest)

theorem scans_lineFeed (rest : Text) :
  Scans [Text.lineFeed] rest [.bare .newline [Text.lineFeed]]
  := scans_token (v := []) (Lexeme.ofText?_lineFeed rest)

/-- The decimal of an integer scans as one token. -/
theorem scans_ofInt (n : Int) {rest : Text} (hrest : Text.Stops CodeUnit.isWordPart rest) :
  Scans (Text.ofInt n) rest [.bare .integer (Text.ofInt n)]
  := by
  cases n with
  | negSucc n =>
    apply scans_token
    rw [Lexeme.ofText?_minus, Lexeme.unsigned?_ofNat (n + 1) hrest]
    rfl
  | ofNat n =>
    have hdigits := Text.isDigit_of_mem_ofNat (n := n)
    have h := Lexeme.unsigned?_ofNat n hrest
    rw [Text.ofInt]
    cases ht : Text.ofNat n with
    | nil => cases Text.ofNat_ne_nil n ht
    | cons d v =>
      rw [ht] at hdigits h
      rw [List.cons_append] at h
      apply scans_token
      rw [Lexeme.ofText?_digit (hdigits d List.mem_cons_self), h]
      rfl

end Assembly

end StackMachine
