import StackMachine.Json.Writer
import StackMachine.Word

/-!
# Words in JSON

A word is written as a number if every integer up to its size is a number, and otherwise
as the string of its digits, so that no digit is lost.
-/

namespace StackMachine

namespace Word

/-- An integer in JSON: a number up to `Number.maxSafe`, a string of digits beyond. -/
def toJson (w : Int) : Json :=
  if w.natAbs ≤ Number.maxSafe then .ofInt w else .string (Text.ofInt w)

/-- A list of integers in JSON. -/
def listToJson (ws : List Int) : Json := .array (ws.map toJson)

end Word

end StackMachine
