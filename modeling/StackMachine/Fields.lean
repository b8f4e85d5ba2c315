import StackMachine.Text

/-!
# Fields

The fields of a record in the order in which they are listed: keys that are positions of a
list first, by their value, and then the other keys in the order in which they came.  A
key that comes again keeps its place and takes the new value.
-/

namespace StackMachine

/-- Keys with their values, in the order in which they are listed. -/
abbrev Fields (α : Type) := List (Text × α)

namespace Fields

variable {α : Type}

/-- The value of a key. -/
def get? (fields : Fields α) (key : Text) : Option α := List.lookup key fields

/-- The keys in their order. -/
def keys (fields : Fields α) : List Text := List.map Prod.fst fields

/-- Whether a key is listed before a new key that is the position `i`. -/
def precedes (i : Nat) (key : Text) : Bool :=
  match key.toIndex? with
  | some j => j < i
  | none => false

/-- The fields with the value of a key set. -/
def insert (fields : Fields α) (key : Text) (value : α) : Fields α :=
  if (keys fields).contains key then
    List.map (fun field => if field.1 = key then (key, value) else field) fields
  else match key.toIndex? with
    | none => fields ++ [(key, value)]
    | some i =>
      List.takeWhile (fun field => precedes i field.1) fields
        ++ (key, value) :: List.dropWhile (fun field => precedes i field.1) fields

/-- The keys that are not among those that are known. -/
def unexpected (known : List Text) (fields : Fields α) : List Text :=
  (keys fields).filter fun key => key ∉ known

end Fields

/-- The message about keys that are not known. -/
def unexpectedMessage (keys : List Text) : Text :=
  Text.concat ["Unrecognized key(s) in object: ",
    Text.join ", " (keys.map fun key => Text.concat ["'", key, "'"])]

end StackMachine
