import StackMachine.Fields
import StackMachine.Number

/-!
# JSON values

The values of JSON, with numbers as floating-point numbers and the fields of an object in
their order.
-/

namespace StackMachine

/-- A JSON value. -/
inductive Json where
  | null
  | bool (value : Bool)
  | number (value : Number)
  | string (value : Text)
  | array (items : List Json)
  | object (fields : List (Text × Json))
deriving Repr, Inhabited

namespace Json

/-- A natural number as a JSON value. -/
def ofNat (n : Nat) : Json := number (.int n)

/-- An integer as a JSON value. -/
def ofInt (n : Int) : Json := number (.int n)

/-- The object of the fields that are present. -/
def record (fields : List (Text × Option Json)) : Json :=
  object (fields.filterMap fun field => field.2.map fun value => (field.1, value))

/-- The word that names the type of a value. -/
def typeName : Json → Text
  | null => "null"
  | bool _ => "boolean"
  | number _ => "number"
  | string _ => "string"
  | array _ => "array"
  | object _ => "object"

/-- The value of a field, if the value is an object that has it. -/
def field? (value : Json) (key : Text) : Option Json :=
  match value with
  | object fields => Fields.get? fields key
  | _ => none

/-- The text that a value is. -/
def string? : Json → Option Text
  | string value => some value
  | _ => none

/-- The number that a value is. -/
def number? : Json → Option Number
  | number value => some value
  | _ => none

end Json

end StackMachine
