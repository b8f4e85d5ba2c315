import StackMachine.Json
import StackMachine.Number.Shortest
import StackMachine.Text.Escape

/-!
# Writing JSON

`Json.compact` writes a value without blanks and `Json.indented` with one item a line,
each level two blanks further in.  In strings the quote, the backslash, the controls below
U+0020 and lone surrogates are escaped and every other unit stands for itself.  Numbers
without a value are written as `null`.
-/

namespace StackMachine

namespace Json

/-- A unit that is not part of a surrogate pair, as it stands in a string. -/
def escape (u : CodeUnit) : Text :=
  if u = 0x22 then "\\\""
  else if u = 0x5C then "\\\\"
  else if u = 0x08 then "\\b"
  else if u = 0x09 then "\\t"
  else if u = 0x0A then "\\n"
  else if u = 0x0C then "\\f"
  else if u = 0x0D then "\\r"
  else if u < 0x20 || u.isLeading || u.isTrailing then u.hexEscape
  else [u]

/-- A string in quotes. -/
def quoted (t : Text) : Text := [0x22] ++ t.escape escape ++ [0x22]

/-- A number, or `null` for an infinity and for what is not a number. -/
def numberText (x : Number) : Text :=
  match x with
  | .infinity _ => "null"
  | .nan => "null"
  | _ => x.toText

mutual

/-- A value without blanks. -/
def compact : Json → Text
  | null => "null"
  | bool true => "true"
  | bool false => "false"
  | number x => numberText x
  | string t => quoted t
  | array items => [0x5B] ++ compactItems items ++ [0x5D]
  | object fields => [0x7B] ++ compactFields fields ++ [0x7D]

/-- The items of an array, with commas between them. -/
def compactItems : List Json → Text
  | [] => []
  | [v] => compact v
  | v :: w :: r => compact v ++ 0x2C :: compactItems (w :: r)

/-- The fields of an object, with commas between them. -/
def compactFields : List (Text × Json) → Text
  | [] => []
  | [(k, v)] => quoted k ++ 0x3A :: compact v
  | (k, v) :: w :: r => quoted k ++ 0x3A :: compact v ++ 0x2C :: compactFields (w :: r)

end

/-- The blanks by which a level is further in than the one around it. -/
def indent : Text := "  "

mutual

/-- A value with one item a line, where `margin` begins the lines after the first. -/
def indented (margin : Text) : Json → Text
  | array [] => "[]"
  | array (v :: r) =>
    [0x5B] ++ indentedItems (margin ++ indent) (v :: r) ++ Text.lineFeed :: margin ++ [0x5D]
  | object [] => [0x7B, 0x7D]
  | object (f :: r) =>
    [0x7B] ++ indentedFields (margin ++ indent) (f :: r) ++ Text.lineFeed :: margin ++ [0x7D]
  | null => "null"
  | bool true => "true"
  | bool false => "false"
  | number x => numberText x
  | string t => quoted t

/-- The items of an array, each on a line of its own. -/
def indentedItems (margin : Text) : List Json → Text
  | [] => []
  | [v] => Text.lineFeed :: margin ++ indented margin v
  | v :: w :: r =>
    Text.lineFeed :: margin ++ indented margin v ++ 0x2C :: indentedItems margin (w :: r)

/-- The fields of an object, each on a line of its own. -/
def indentedFields (margin : Text) : List (Text × Json) → Text
  | [] => []
  | [(k, v)] => Text.lineFeed :: margin ++ quoted k ++ Text.ofString ": " ++ indented margin v
  | (k, v) :: w :: r =>
    Text.lineFeed :: margin ++ quoted k ++ Text.ofString ": " ++ indented margin v
      ++ 0x2C :: indentedFields margin (w :: r)

end

/-- A value with one item a line, beginning at the left margin. -/
def pretty (v : Json) : Text := indented [] v

end Json

end StackMachine
