/-!
# Text

A text is a list of 16-bit code units, as in UTF-16: a character above U+FFFF is a pair
of surrogate units, and a surrogate may stand alone.  The file defines the passage
between texts and strings, the classes of ASCII units that words and numbers are made
of, decimal digits of integers, and the usual ways to cut a text.
-/

namespace StackMachine

/-- A unit of text, sixteen bits wide. -/
abbrev CodeUnit := UInt16

/-- A sequence of code units, with no condition on surrogates. -/
abbrev Text := List CodeUnit

namespace CodeUnit

/-- The unit of an ASCII character. -/
def ofChar (c : Char) : CodeUnit := c.toNat.toUInt16

/-- The first unit of a surrogate pair, U+D800 to U+DBFF. -/
def isLeading (u : CodeUnit) : Bool := 0xD800 ≤ u && u < 0xDC00

/-- The second unit of a surrogate pair, U+DC00 to U+DFFF. -/
def isTrailing (u : CodeUnit) : Bool := 0xDC00 ≤ u && u < 0xE000

/-- The digits `0` to `9`. -/
def isDigit (u : CodeUnit) : Bool := 0x30 ≤ u && u ≤ 0x39

/-- The letters `A` to `Z` and `a` to `z`. -/
def isLetter (u : CodeUnit) : Bool := (0x41 ≤ u && u ≤ 0x5A) || (0x61 ≤ u && u ≤ 0x7A)

/-- A unit that can begin a word: a letter or `_`. -/
def isWordStart (u : CodeUnit) : Bool := isLetter u || u == 0x5F

/-- A unit that can continue a word: a letter, a digit or `_`. -/
def isWordPart (u : CodeUnit) : Bool := isWordStart u || isDigit u

/-- The blanks and line ends that are removed around a text: the ASCII controls U+0009 to
U+000D, the separators of every script, the line and paragraph separators and U+FEFF. -/
def isBlank (u : CodeUnit) : Bool :=
  (0x09 ≤ u && u ≤ 0x0D) || u == 0x20 || u == 0xA0 || u == 0x1680
    || (0x2000 ≤ u && u ≤ 0x200A) || u == 0x2028 || u == 0x2029 || u == 0x202F
    || u == 0x205F || u == 0x3000 || u == 0xFEFF

/-- The small letter of an ASCII capital; every other unit is left as it is. -/
def toLower (u : CodeUnit) : CodeUnit := if 0x41 ≤ u && u ≤ 0x5A then u + 0x20 else u

/-- The value of a digit in the bases up to sixteen, by its ASCII character. -/
def digitValue? (u : CodeUnit) : Option Nat :=
  if isDigit u then some (u.toNat - 0x30)
  else if 0x61 ≤ toLower u && toLower u ≤ 0x66 then some ((toLower u).toNat - 0x61 + 10)
  else none

end CodeUnit

namespace Text

/-- The line feed, on which lines are separated. -/
def lineFeed : CodeUnit := 0x0A

/-- The carriage return, which may stand before a line feed. -/
def carriageReturn : CodeUnit := 0x0D

/-- The units of a code point: one, or a surrogate pair above U+FFFF. -/
def ofCodePoint (n : Nat) : Text :=
  if n < 0x10000 then [n.toUInt16]
  else [(0xD800 + (n - 0x10000) / 0x400).toUInt16, (0xDC00 + (n - 0x10000) % 0x400).toUInt16]

/-- The units of a character. -/
def ofChar (c : Char) : Text := ofCodePoint c.toNat

/-- The units of a string. -/
def ofString (s : String) : Text := s.toList.flatMap ofChar

instance : Coe String Text := ⟨ofString⟩

/-- The character of a unit that is not part of a pair; a lone surrogate gives U+FFFD. -/
def loneChar (u : CodeUnit) : Char :=
  if CodeUnit.isLeading u || CodeUnit.isTrailing u then Char.ofNat 0xFFFD
  else Char.ofNat u.toNat

/-- The character of a surrogate pair. -/
def pairChar (u v : CodeUnit) : Char :=
  Char.ofNat (0x10000 + (u.toNat - 0xD800) * 0x400 + (v.toNat - 0xDC00))

/-- The characters of a text, where a lone surrogate gives U+FFFD. -/
def toChars : Text → List Char
  | [] => []
  | [u] => [loneChar u]
  | u :: v :: r =>
    if CodeUnit.isLeading u && CodeUnit.isTrailing v then pairChar u v :: toChars r
    else loneChar u :: toChars (v :: r)

/-- The string of a text, where a lone surrogate gives U+FFFD. -/
def toString (t : Text) : String := String.ofList (toChars t)

/-- The text with U+FFFD in the place of each lone surrogate. -/
def repaired (t : Text) : Text := (toChars t).flatMap ofChar

/-- The pieces put together in order. -/
def concat (pieces : List Text) : Text := pieces.flatten

/-- The decimal digits of a natural number, without leading zeros. -/
def ofNat (n : Nat) : Text := (Nat.toDigits 10 n).flatMap ofChar

/-- The decimal digits of an integer, with a minus sign if it is negative. -/
def ofInt : Int → Text
  | .ofNat n => ofNat n
  | .negSucc n => CodeUnit.ofChar '-' :: ofNat (n + 1)

/-- The number that a run of digits in a base denotes, read from left to right. -/
def digitsValue (base : Nat) (t : Text) : Nat :=
  t.foldl (fun n u => base * n + (CodeUnit.digitValue? u).getD 0) 0

/-- The integer that an optional minus sign and a run of digits denote. -/
def toInt? : Text → Option Int
  | [] => none
  | u :: r =>
    if u = CodeUnit.ofChar '-' then
      if r ≠ [] ∧ r.all CodeUnit.isDigit then some (-(digitsValue 10 r : Int)) else none
    else if (u :: r).all CodeUnit.isDigit then some (digitsValue 10 (u :: r) : Int) else none

/-- The text without the blanks at its two ends. -/
def trim (t : Text) : Text :=
  ((t.dropWhile CodeUnit.isBlank).reverse.dropWhile CodeUnit.isBlank).reverse

/-- The texts put together with a separator between neighbours. -/
def join (separator : Text) (pieces : List Text) : Text :=
  separator.intercalate pieces

/-- The number that a text names as the position in a list: digits without leading zeros,
below `2 ^ 32 - 1`. -/
def toIndex? (t : Text) : Option Nat :=
  if t ≠ [] ∧ t.all CodeUnit.isDigit ∧ ofNat (digitsValue 10 t) = t
      ∧ digitsValue 10 t < 0xFFFFFFFF then
    some (digitsValue 10 t)
  else none

/-- Whether a text ends as another does, small and capital ASCII letters being the same. -/
def endsWithIgnoringCase (ending t : Text) : Bool :=
  (ending.map CodeUnit.toLower).isSuffixOf (t.map CodeUnit.toLower)

end Text

end StackMachine
