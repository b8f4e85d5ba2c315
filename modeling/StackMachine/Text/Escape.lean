import StackMachine.Text

/-!
# Escapes

What stands between the quotes of a quoted text.  `Text.escape` writes a text unit by unit
and leaves surrogate pairs as they are, so that a unit can be written by its number.
`Text.shown` is a text as a message shows it that may hold anything.
-/

namespace StackMachine

namespace CodeUnit

/-- The digit of a value below sixteen, with small letters. -/
def hexDigit (n : Nat) : CodeUnit :=
  if n < 10 then (0x30 + n).toUInt16 else (0x61 + (n - 10)).toUInt16

/-- The digit of a value below sixteen, with capital letters. -/
def capitalHexDigit (n : Nat) : CodeUnit :=
  if n < 10 then (0x30 + n).toUInt16 else (0x41 + (n - 10)).toUInt16

/-- A unit by its four hexadecimal digits. -/
def hexEscape (u : CodeUnit) : Text :=
  let n := u.toNat
  Text.ofString "\\u"
    ++ [hexDigit (n / 0x1000), hexDigit (n / 0x100 % 0x10), hexDigit (n / 0x10 % 0x10),
      hexDigit (n % 0x10)]

/-- A unit below U+0100 by its two hexadecimal digits. -/
def shortHexEscape (u : CodeUnit) : Text :=
  Text.ofString "\\x" ++ [capitalHexDigit (u.toNat / 0x10), capitalHexDigit (u.toNat % 0x10)]

end CodeUnit

namespace Text

/-- A text in which every unit that is not part of a surrogate pair is written as its
image. -/
def escape (image : CodeUnit → Text) : Text → Text
  | [] => []
  | [u] => image u
  | u :: v :: r =>
    if u.isLeading && v.isTrailing then u :: v :: escape image r
    else image u ++ escape image (v :: r)

/-! ### Texts in messages -/

/-- A unit as a message shows it between quotes of a kind. -/
def shownUnit (quote u : CodeUnit) : Text :=
  if u = 0x08 then "\\b"
  else if u = 0x09 then "\\t"
  else if u = 0x0A then "\\n"
  else if u = 0x0C then "\\f"
  else if u = 0x0D then "\\r"
  else if u < 0x20 || (0x7F ≤ u && u ≤ 0x9F) then u.shortHexEscape
  else if u = 0x5C then "\\\\"
  else if u = 0x27 && quote = 0x27 then "\\'"
  else if u.isLeading || u.isTrailing then u.hexEscape
  else [u]

/-- The quotes in which a message shows a text: single ones, or else double ones or grave
accents if these need no escape. -/
def shownQuote (t : Text) : CodeUnit :=
  if !t.contains 0x27 then 0x27
  else if !t.contains 0x22 then 0x22
  else if !t.contains 0x60 && !(t.zip t.tail).contains (0x24, 0x7B) then 0x60
  else 0x27

/-- The greatest length of a text whose lines are shown together. -/
def unbrokenLength : Nat := 76

/-- The number of units from the start of a text that are looked at to show it. -/
def regardedLength : Nat := 10000

/-- The greatest length at which a quoted text is shown whole. -/
def shownLength : Nat := 128

/-- The lines of a text, each with the line feed that ends it. -/
def lines : Text → List Text
  | [] => []
  | u :: r =>
    if u = lineFeed then [u] :: lines r
    else match lines r with
      | [] => [[u]]
      | line :: rest => (u :: line) :: rest

/-- A text in quotes of its own. -/
def inQuotes (t : Text) : Text :=
  let quote := shownQuote t
  quote :: escape (shownUnit quote) t ++ [quote]

/-- A text in quotes as a message shows it.  The lines of a long text are quoted one by one,
and what is still too long is cut. -/
def shown (t : Text) : Text :=
  let whole :=
    if t.length ≤ unbrokenLength then t.inQuotes
    else join (ofString " +\n  ") ((lines (t.take regardedLength)).map inQuotes)
  if shownLength < whole.length then whole.take shownLength ++ ofString "..." else whole

end Text

end StackMachine
