import Mathlib.Tactic.Common
import StackMachine.Json.Reader
import StackMachine.Json.Writer
import StackMachine.Proofs.Text.Decimal

/-!
# Strings and numbers in JSON

A string that is written in quotes reads back as itself, whatever its units are, and the decimal of
a natural number reads back as the number nearest to it, before a text that does not go on with the
numeral.
-/

namespace StackMachine

/-! ### Units -/

namespace CodeUnit

/-- A unit that is no control. -/
def isPrintable (u : CodeUnit) : Bool := 0x20 ≤ u

theorem isPrintable_iff {u : CodeUnit} :
  u.isPrintable = true ↔ ¬ u < 0x20
  := by
  rw [isPrintable, decide_eq_true_eq, UInt16.not_lt]

theorem isPrintable_hexDigit :
  ∀ n < 0x10, isPrintable (hexDigit n) = true
  := by
  decide

theorem digitValue?_hexDigit :
  ∀ n < 0x10, digitValue? (hexDigit n) = some n
  := by
  decide

end CodeUnit

namespace Json

/-- The four hexadecimal digits of a unit denote it. -/
theorem hexUnit?_hexDigit (u : CodeUnit) :
  hexUnit? (CodeUnit.hexDigit (u.toNat / 0x1000)) (CodeUnit.hexDigit (u.toNat / 0x100 % 0x10))
      (CodeUnit.hexDigit (u.toNat / 0x10 % 0x10)) (CodeUnit.hexDigit (u.toNat % 0x10))
    = some u
  := by
  have hu := u.toNat_lt
  have hdigit (n : Nat) (hn : n < 0x10) := CodeUnit.digitValue?_hexDigit n hn
  rw [hexUnit?, hdigit _ (by omega), hdigit _ (by omega), hdigit _ (by omega), hdigit _ (by omega)]
  have hvalue : ((u.toNat / 0x1000 * 0x10 + u.toNat / 0x100 % 0x10) * 0x10
      + u.toNat / 0x10 % 0x10) * 0x10 + u.toNat % 0x10 = u.toNat := by
    omega
  simp only [bind, Option.bind_some, hvalue]
  exact congrArg some UInt16.ofNat_toNat

/-! ### How units are written -/

/-- A unit that stands for itself in a string. -/
structure IsPlain (u : CodeUnit) : Prop where
  not_quote : u ≠ 0x22
  not_backslash : u ≠ 0x5C
  isPrintable : u.isPrintable = true

/-- A surrogate stands for itself in a string. -/
theorem isPlain_of_surrogate {u : CodeUnit} (h : u.isLeading = true ∨ u.isTrailing = true) :
  IsPlain u
  := by
  simp only [CodeUnit.isLeading, CodeUnit.isTrailing, Bool.and_eq_true, decide_eq_true_eq,
    UInt16.le_iff_toNat_le, UInt16.lt_iff_toNat_lt] at h
  simp only [UInt16.reduceToNat] at h
  constructor
  · rintro rfl
    simp only [UInt16.reduceToNat] at h
    omega
  · rintro rfl
    simp only [UInt16.reduceToNat] at h
    omega
  · rw [CodeUnit.isPrintable, decide_eq_true_eq, UInt16.le_iff_toNat_le]
    simp only [UInt16.reduceToNat]
    omega

/-- The letter by which a unit is escaped. -/
structure IsLetter (e u : CodeUnit) : Prop where
  not_u : e ≠ CodeUnit.ofChar 'u'
  unescape : unescape? e = some u
  isPrintable : e.isPrintable = true

/-- A unit is escaped by a letter or by its digits, or it stands for itself. -/
theorem escape_cases (u : CodeUnit) :
  (∃ e, IsLetter e u ∧ escape u = [0x5C, e]) ∨ escape u = u.hexEscape
    ∨ IsPlain u ∧ escape u = [u]
  := by
  have hletter (e : CodeUnit)
      (he : e ≠ CodeUnit.ofChar 'u' ∧ unescape? e = some u ∧ e.isPrintable = true) :
      ∃ e', IsLetter e' u ∧ [0x5C, e] = [0x5C, e'] :=
    ⟨e, ⟨he.1, he.2.1, he.2.2⟩, rfl⟩
  rw [escape]
  split
  · next hu => exact .inl (hletter 0x22 (by rw [hu]; decide))
  split
  · next hu => exact .inl (hletter 0x5C (by rw [hu]; decide))
  split
  · next hu => exact .inl (hletter (CodeUnit.ofChar 'b') (by rw [hu]; decide))
  split
  · next hu => exact .inl (hletter (CodeUnit.ofChar 't') (by rw [hu]; decide))
  split
  · next hu => exact .inl (hletter (CodeUnit.ofChar 'n') (by rw [hu]; decide))
  split
  · next hu => exact .inl (hletter (CodeUnit.ofChar 'f') (by rw [hu]; decide))
  split
  · next hu => exact .inl (hletter (CodeUnit.ofChar 'r') (by rw [hu]; decide))
  split
  · exact .inr (.inl rfl)
  · next hquote hbackslash _ _ _ _ _ hplain =>
    simp only [Bool.or_eq_true, decide_eq_true_eq, not_or] at hplain
    exact .inr (.inr ⟨⟨hquote, hbackslash, CodeUnit.isPrintable_iff.mpr hplain.1.1⟩, rfl⟩)

/-! ### Strings -/

theorem stringBody?_quote (r : Text) :
  stringBody? (0x22 :: r) = some ([], r)
  := by
  rw [stringBody?.eq_def]
  simp only [if_true]

theorem stringBody?_plain {u : CodeUnit} (hu : IsPlain u) (r : Text) :
  stringBody? (u :: r) = (stringBody? r).map (Prod.map (u :: ·) id)
  := by
  rw [stringBody?.eq_def]
  simp only [if_neg hu.not_quote, if_neg hu.not_backslash,
    if_neg (CodeUnit.isPrintable_iff.mp hu.isPrintable)]

theorem stringBody?_letter {e u : CodeUnit} (he : IsLetter e u) (r : Text) :
  stringBody? (0x5C :: e :: r) = (stringBody? r).map (Prod.map (u :: ·) id)
  := by
  rw [stringBody?.eq_def]
  simp only [if_neg (show (0x5C : CodeUnit) ≠ 0x22 by decide), if_true, if_neg he.not_u,
    he.unescape]

theorem stringBody?_hexEscape (u : CodeUnit) (r : Text) :
  stringBody? (u.hexEscape ++ r) = (stringBody? r).map (Prod.map (u :: ·) id)
  := by
  have htext : u.hexEscape ++ r = 0x5C :: CodeUnit.ofChar 'u' :: CodeUnit.hexDigit (u.toNat / 0x1000)
      :: CodeUnit.hexDigit (u.toNat / 0x100 % 0x10) :: CodeUnit.hexDigit (u.toNat / 0x10 % 0x10)
      :: CodeUnit.hexDigit (u.toNat % 0x10) :: r := rfl
  rw [htext, stringBody?.eq_def]
  simp only [if_neg (show (0x5C : CodeUnit) ≠ 0x22 by decide), if_true, hexUnit?_hexDigit]

/-- What a unit is written as reads back as the unit. -/
theorem stringBody?_escape_unit (u : CodeUnit) (r : Text) :
  stringBody? (escape u ++ r) = (stringBody? r).map (Prod.map (u :: ·) id)
  := by
  rcases escape_cases u with ⟨e, he, h⟩ | h | ⟨hu, h⟩
  · rw [h]
    apply stringBody?_letter he
  · rw [h]
    apply stringBody?_hexEscape
  · rw [h]
    apply stringBody?_plain hu

/-- A text that is written in a string reads back as itself. -/
theorem stringBody?_escape (t r : Text) :
  stringBody? (t.escape escape ++ 0x22 :: r) = some (t, r)
  := by
  fun_induction Text.escape escape t with
  | case1 => apply stringBody?_quote
  | case2 u =>
    rw [stringBody?_escape_unit, stringBody?_quote]
    rfl
  | case3 u v s hpair ih =>
    obtain ⟨hu, hv⟩ := Bool.and_eq_true_iff.mp hpair
    rw [List.cons_append, List.cons_append, stringBody?_plain (isPlain_of_surrogate (.inl hu)),
      stringBody?_plain (isPlain_of_surrogate (.inr hv)), ih]
    rfl
  | case4 u v s _ ih =>
    rw [List.append_assoc, stringBody?_escape_unit, ih]
    rfl

/-- What a unit is written as has no controls. -/
theorem isPrintable_escape_unit (u : CodeUnit) :
  (escape u).all CodeUnit.isPrintable = true
  := by
  rcases escape_cases u with ⟨e, he, h⟩ | h | ⟨hu, h⟩
  · rw [h, List.all_cons, List.all_cons, he.isPrintable]
    rfl
  · have hu := u.toNat_lt
    rw [h, CodeUnit.hexEscape, List.all_append]
    simp only [List.all_cons, List.all_nil,
      CodeUnit.isPrintable_hexDigit _ (Nat.mod_lt _ (by decide)),
      CodeUnit.isPrintable_hexDigit (u.toNat / 0x1000) (by omega)]
    rfl
  · rw [h, List.all_cons, hu.isPrintable]
    rfl

/-- What a string is written as has no controls. -/
theorem isPrintable_quoted (t : Text) :
  (quoted t).all CodeUnit.isPrintable = true
  := by
  have hbody : (t.escape escape).all CodeUnit.isPrintable = true := by
    fun_induction Text.escape escape t with
    | case1 => rfl
    | case2 u => apply isPrintable_escape_unit
    | case3 u v s hpair ih =>
      obtain ⟨hu, hv⟩ := Bool.and_eq_true_iff.mp hpair
      rw [List.all_cons, List.all_cons, (isPlain_of_surrogate (.inl hu)).isPrintable,
        (isPlain_of_surrogate (.inr hv)).isPrintable, ih]
      rfl
    | case4 u v s _ ih => rw [List.all_append, isPrintable_escape_unit, ih, Bool.and_true]
  rw [quoted, List.all_append, List.all_append, hbody]
  rfl

end Json

/-! ### Numbers -/

namespace Number

/-- A text that does not go on with a numeral: not with a digit, a point or the letter of a
power of ten. -/
structure Ends (rest : Text) : Prop where
  digit : Text.Stops CodeUnit.isDigit rest
  point : Text.Stops (· = CodeUnit.ofChar '.') rest
  power : Text.Stops (·.toLower = CodeUnit.ofChar 'e') rest

theorem exponent?_of_ends {rest : Text} (h : Ends rest) :
  exponent? rest = some (0, rest)
  := by
  cases rest with
  | nil => rfl
  | cons u rest =>
    have hu : ¬ u.toLower = CodeUnit.ofChar 'e' := of_decide_eq_false h.power
    simp only [exponent?, if_neg hu]

theorem jsonFraction?_of_ends {rest : Text} (h : Ends rest) :
  jsonFraction? rest = some ([], rest)
  := by
  cases rest with
  | nil => rfl
  | cons u rest =>
    have hu : ¬ u = CodeUnit.ofChar '.' := of_decide_eq_false h.point
    simp only [jsonFraction?, fraction?, if_neg hu]

/-- The decimal of a natural number is the whole part of a numeral. -/
theorem jsonWhole?_ofNat (n : Nat) {rest : Text} (h : Ends rest) :
  jsonWhole? (Text.ofNat n ++ rest) = some (Text.ofNat n, rest)
  := by
  obtain ⟨hne, hzero⟩ := Text.head?_ofNat n
  rw [jsonWhole?, digits, Text.takeWhile_append Text.isDigit_of_mem_ofNat h.digit,
    Text.dropWhile_append Text.isDigit_of_mem_ofNat h.digit]
  cases ht : Text.ofNat n with
  | nil => cases hne ht
  | cons u ds =>
    simp only
    rw [if_neg]
    rintro ⟨rfl, hds⟩
    rw [ht] at hzero
    have hn := hzero rfl
    subst hn
    cases ht
    apply hds rfl

/-- The decimal of a natural number reads back as the number nearest to it. -/
theorem jsonUnsigned?_ofNat (negative : Bool) (n : Nat) {rest : Text} (h : Ends rest) :
  jsonUnsigned? negative (Text.ofNat n ++ rest) = some (ofDecimal negative n 0, rest)
  := by
  have hparts : ofParts negative (Text.ofNat n) [] 0 = ofDecimal negative n 0 := by
    rw [ofParts, List.append_nil, Text.digitsValue_ofNat]
    rfl
  simp only [jsonUnsigned?, jsonWhole?_ofNat n h, jsonFraction?_of_ends h, exponent?_of_ends h,
    bind, Option.bind_some, hparts]

end Number

/-! ### Numerals among tokens -/

namespace Json

theorem isPrintable_of_isDigit {u : CodeUnit} (hu : u.isDigit = true) :
  u.isPrintable = true
  := by
  simp only [CodeUnit.isDigit, CodeUnit.isPrintable, Bool.and_eq_true, decide_eq_true_eq,
    UInt16.le_iff_toNat_le] at hu ⊢
  simp only [UInt16.reduceToNat] at hu ⊢
  omega

/-- A text that begins with a minus sign or a digit begins with no word. -/
theorem literal?_of_numeral {u : CodeUnit} (hu : u = CodeUnit.ofChar '-' ∨ u.isDigit = true)
    (r : Text) :
  literal? (u :: r) = none
  := by
  apply List.findSome?_eq_none_iff.mpr
  rintro ⟨word, value⟩ hmem
  have hword : ¬ word.isPrefixOf (u :: r) = true := by
    rw [List.isPrefixOf_iff_prefix]
    intro hprefix
    simp only [literals, List.mem_cons, Prod.mk.injEq, List.not_mem_nil, or_false] at hmem
    rcases hmem with ⟨rfl, -⟩ | ⟨rfl, -⟩ | ⟨rfl, -⟩
    all_goals
      obtain ⟨rfl, -⟩ := List.cons_prefix_cons.mp hprefix
      revert hu
      decide
  simp only [if_neg hword]

/-- A text that begins with a minus sign or a digit begins with a numeral or with no token. -/
theorem token?_of_numeral {u : CodeUnit} (hu : u = CodeUnit.ofChar '-' ∨ u.isDigit = true)
    (r : Text) :
  token? (u :: r) = (Number.json? (u :: r)).map (Prod.map (.scalar ∘ .number) id)
  := by
  have hne (m : CodeUnit) (hm : ¬ (m = CodeUnit.ofChar '-' ∨ m.isDigit = true)) : u ≠ m := by
    rintro rfl
    exact hm hu
  simp only [token?, if_neg (hne 0x5B (by decide)), if_neg (hne 0x5D (by decide)),
    if_neg (hne 0x7B (by decide)), if_neg (hne 0x7D (by decide)), if_neg (hne 0x2C (by decide)),
    if_neg (hne 0x3A (by decide)), if_neg (hne 0x22 (by decide)), literal?_of_numeral hu]

theorem isSpace_of_numeral {u : CodeUnit} (hu : u = CodeUnit.ofChar '-' ∨ u.isDigit = true) :
  isSpace u = false
  := by
  rw [Bool.eq_false_iff]
  intro hspace
  simp only [isSpace, Bool.or_eq_true, beq_iff_eq] at hspace
  rcases hspace with ((rfl | rfl) | rfl) | rfl <;> revert hu <;> decide

end Json

end StackMachine
