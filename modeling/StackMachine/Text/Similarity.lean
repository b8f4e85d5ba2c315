import StackMachine.Text.Collation

/-!
# Similar words

The distance of two words is the least number of letters that are to be inserted, removed,
replaced, or exchanged with their neighbour to turn one into the other, where no letter is
touched twice.  A word that is not known is answered with the known words near to it.
-/

namespace StackMachine

namespace Text

/-- The distance beyond which words are not similar. -/
def greatestDistance : Nat := 3

/-- The next row of the table of distances.  The row for the letters of the second word up
to `v` is computed from the row before it, which begins with the cell above `left`, and
from the row before that, which is two letters back.  The letters before the current ones
are `u'` and `v'`. -/
def distanceCells (v : CodeUnit) (v' : Option CodeUnit) :
    Option CodeUnit → Nat → Text → List Nat → List Nat → List Nat
  | u', left, u :: word, diagonal :: above :: row, older =>
    let plain := min (min (left + 1) (above + 1)) (diagonal + if u = v then 0 else 1)
    let cell := if v' = some u ∧ u' = some v then min plain (older.headD plain + 1) else plain
    cell :: distanceCells v v' (some u) cell word (above :: row)
      (if u'.isSome then older.tail else older)
  | _, _, _, _, _ => []

/-- The rows of the table of distances, one after another; the last cell of the last row is
the distance. -/
def distanceRows (word : Text) :
    Nat → Option CodeUnit → List Nat → List Nat → Text → List Nat
  | _, _, _, row, [] => row
  | count, v', older, row, v :: other =>
    let next := (count + 1) :: distanceCells v v' none (count + 1) word row older
    distanceRows word (count + 1) (some v) row next other

/-- The distance of two words; words of which one is longer by more than the greatest
distance are as distant as can be. -/
def distance (word other : Text) : Nat :=
  let length := max word.length other.length
  if min word.length other.length + greatestDistance < length then length
  else ((distanceRows word 0 none [] (List.range (word.length + 1)) other).getLast?).getD length

/-- Whether a known word is near to another: it has more than one letter, the distance is
not beyond the greatest, and more than two fifths of the letters agree. -/
def isNear (word known : Text) : Bool :=
  let length := max word.length known.length
  let d := distance word known
  1 < known.length && d ≤ greatestDistance && 2 * length < 5 * (length - d)

/-- The known words that are nearest to a word, in alphabetical order. -/
def nearest (word : Text) (known : List Text) : List Text :=
  let near := known.eraseDups.filter (isNear word)
  let least := (near.map (distance word)).min?
  (near.filter fun w => some (distance word w) = least).mergeSort fun s t => !alphabetical t s

/-- The line that suggests words, if there are any. -/
def suggestion : List Text → Text
  | [] => []
  | [w] => concat ["\n(Did you mean ", w, "?)"]
  | ws => concat ["\n(Did you mean one of ", join ", " ws, "?)"]

end Text

end StackMachine
