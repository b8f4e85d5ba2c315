import StackMachine.Json
import StackMachine.Number.Shortest

/-!
# Untyped values

Values of which nothing is known beforehand: those of JSON, integers of any size, and the
absence of a value.  The instructions of an unchecked program and the options of a machine
are of this kind.
-/

namespace StackMachine

/-- An untyped value. -/
inductive Datum where
  | absent
  | null
  | bool (value : Bool)
  | number (value : Number)
  | integer (value : Int)
  | string (value : Text)
  | list (items : List Datum)
  | record (fields : List (Text × Datum))
deriving Repr, Inhabited

namespace Datum

/-- The value of a field; absent if the value is no record or has no such field. -/
def field (d : Datum) (key : Text) : Datum :=
  match d with
  | record fields => (Fields.get? fields key).getD absent
  | _ => absent

/-- Whether a value has fields to look at: all have but `absent` and `null`. -/
def hasFields : Datum → Bool
  | absent => false
  | null => false
  | _ => true

/-- The word that names the type of a value. -/
def typeName : Datum → Text
  | absent => "undefined"
  | null => "null"
  | bool _ => "boolean"
  | number .nan => "nan"
  | number _ => "number"
  | integer _ => "bigint"
  | string _ => "string"
  | list _ => "array"
  | record _ => "object"

mutual

/-- The text by which a message shows a value, if it has one.  All records are shown alike, whatever
their fields; but the text of a record is asked of its `toString`, and no value serves as that, so
that a record with such a field of its own has no text. -/
def toText? : Datum → Option Text
  | absent => some "undefined"
  | null => some "null"
  | bool true => some "true"
  | bool false => some "false"
  | number x => some x.toText
  | integer n => some (Text.ofInt n)
  | string t => some t
  | list items => itemsText? items
  | record fields =>
    if (Fields.get? fields "toString").isSome then none else some "[object Object]"

/-- The items of a list with commas between them; missing items leave their place empty. -/
def itemsText? : List Datum → Option Text
  | [] => some []
  | [v] => if v.hasFields then toText? v else some []
  | v :: w :: r => do
    let shown ← if v.hasFields then toText? v else some []
    let rest ← itemsText? (w :: r)
    return shown ++ 0x2C :: rest

end

mutual

/-- A JSON value as an untyped value. -/
def ofJson : Json → Datum
  | .null => null
  | .bool b => bool b
  | .number x => number x
  | .string t => string t
  | .array items => list (ofItems items)
  | .object fields => record (ofFields fields)

/-- The items of a JSON array as untyped values. -/
def ofItems : List Json → List Datum
  | [] => []
  | v :: r => ofJson v :: ofItems r

/-- The fields of a JSON object as untyped values. -/
def ofFields : List (Text × Json) → List (Text × Datum)
  | [] => []
  | (k, v) :: r => (k, ofJson v) :: ofFields r

end

end Datum

end StackMachine
