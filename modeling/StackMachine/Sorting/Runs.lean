import StackMachine.Sorting.Merge

/-!
# Sorting by runs

A list is cut into runs, which are in order already or are put in order, and neighbouring
runs are merged.  The order is a test of which of two elements comes first.  If the test is
an order the result is the sorted list, in which equal elements keep their order.  If it is
not, as with counts that cannot be compared, the result is still determined.
-/

namespace StackMachine

namespace Sorting

variable {α : Type} (precedes : α → α → Bool)

/-! ### Runs -/

/-- How many elements continue a run after an element, where each comes before the one
before it if the run goes down, and none does if it goes up. -/
def runLength (down : Bool) : α → List α → Nat
  | _, [] => 0
  | x, y :: r => if precedes y x = down then runLength down y r + 1 else 0

/-- The run at the beginning of a list, in order, and the rest. -/
def splitRun : List α → List α × List α
  | x :: y :: r =>
    let down := precedes y x
    let n := runLength precedes down x (y :: r) + 1
    let run := (x :: y :: r).take n
    (if down then run.reverse else run, (x :: y :: r).drop n)
  | xs => (xs, [])

/-- A run with an element inserted, after those that it does not come before. -/
def insert (run : List α) (x : α) : List α :=
  let place := bisect (holdsAt (fun y => !precedes x y) run) .front 0 run.length
  run.take place ++ x :: run.drop place

/-- A run of at least some length from the beginning of a list, if there are so many
elements, and the rest. -/
def takeRun (least : Nat) (xs : List α) : List α × List α :=
  let cut := splitRun precedes xs
  let missing := least - cut.1.length
  ((cut.2.take missing).foldl (insert precedes) cut.1, cut.2.drop missing)

theorem splitRun_length (x : α) (xs : List α) :
    (splitRun precedes (x :: xs)).2.length ≤ xs.length := by
  cases xs with
  | nil => simp [splitRun]
  | cons y r =>
    simp only [splitRun, List.length_drop, List.length_cons]
    omega

/-- A run takes at least one element. -/
theorem takeRun_length (least : Nat) (x : α) (xs : List α) :
    (takeRun precedes least (x :: xs)).2.length ≤ xs.length := by
  have split := splitRun_length precedes x xs
  simp only [takeRun, List.length_drop]
  omega

/-- The least length of the runs of a list: the length, divided by the power of two by which
32 to 64 are left, and rounded up. -/
def leastRun (size : Nat) : Nat :=
  let scale := Nat.pow 2 (Nat.log2 size - 5)
  (size + scale - 1) / scale

/-! ### Runs that wait to be merged -/

/-- The runs that wait to be merged, the last of them first, and how many elements in a row
are worth a search. -/
abbrev Waiting (α : Type) := List (List α) × Nat

/-- The last runs merged until each is longer than the next, and longer than the next two
together.  With `all` only one is left.  Of the last but one it is the shorter neighbour
with which it is merged. -/
def settle (all : Bool) (enough : Nat) : List (List α) → Waiting α
  | z :: y :: x :: r =>
    let isUneven := x.length ≤ y.length + z.length
      || r.head?.any (fun w => w.length ≤ x.length + y.length)
    if all || isUneven || y.length ≤ z.length then
      if x.length < z.length then
        let (merged, enough) := mergeRuns precedes enough x y
        settle all enough (z :: merged :: r)
      else
        let (merged, enough) := mergeRuns precedes enough y z
        settle all enough (merged :: x :: r)
    else (z :: y :: x :: r, enough)
  | [z, y] =>
    if all || y.length ≤ z.length then
      let (merged, enough) := mergeRuns precedes enough y z
      ([merged], enough)
    else ([z, y], enough)
  | runs => (runs, enough)
termination_by runs => runs.length

/-- The runs that wait after all of a list was cut into runs. -/
def collect (least : Nat) (waiting : Waiting α) : List α → Waiting α
  | [] => waiting
  | x :: xs =>
    let cut := takeRun precedes least (x :: xs)
    collect least (settle precedes false waiting.2 (cut.1 :: waiting.1)) cut.2
termination_by xs => xs.length
decreasing_by exact Nat.lt_succ_of_le (takeRun_length precedes least x xs)

/-- A list in order. -/
def sort (xs : List α) : List α :=
  let (runs, enough) := collect precedes (leastRun xs.length) ([], worthwhile) xs
  (settle precedes true enough runs).1.flatten

end Sorting

end StackMachine
