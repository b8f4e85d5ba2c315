import StackMachine.Sorting.Search

/-!
# Merging of runs

Two runs are merged from the front or from the back.  They are compared element by element
until one of them has given so many elements in a row that it is worth while to search for
how many more it gives; that number goes down as long as the searches pay and up when they
do not.  It is kept from one merge to the next.
-/

namespace StackMachine

namespace Sorting

variable {α : Type}

/-- How many elements a search has to find to pay. -/
def worthwhile : Nat := 7

/-- What a merge does next. -/
inductive MergeMode where
  /-- It compares two elements; so many in a row came from the first run or the second. -/
  | turns (firstWins secondWins : Nat)
  /-- It searches in the first run. -/
  | searchFirst
  /-- It searches in the second run, after a search in the first found so many. -/
  | searchSecond (found : Nat)
deriving DecidableEq, Repr

/-- Whether nothing is left to be compared: a run is used up, or the one that was laid aside
has a single element, which comes last.  That is the first run at the front, and the second
at the back. -/
def isMerged (side : Side) (xs ys : List α) : Bool :=
  match side with
  | .front => xs.length ≤ 1 || ys.isEmpty
  | .back => ys.length ≤ 1 || xs.isEmpty

/-- The elements of two runs of which nothing is left to be compared. -/
def remainder (side : Side) (xs ys : List α) : List α :=
  match side with
  | .front => ys ++ xs
  | .back => xs ++ ys

/-- A list of elements before the result of a merge. -/
def after (moved : List α) (result : List α × Nat) : List α × Nat :=
  (moved ++ result.1, result.2)

/-- Two runs merged, and how many elements in a row are then worth a search; `wins x y` tells
that an element of the first comes before one of the second. -/
def merge (wins : α → α → Bool) (side : Side) (mode : MergeMode) (enough : Nat) :
    List α → List α → List α × Nat
  | x :: xs, y :: ys =>
    if isMerged side (x :: xs) (y :: ys) then (remainder side (x :: xs) (y :: ys), enough)
    else match mode with
      | .turns firstWins secondWins =>
        if wins x y then
          let next := if enough ≤ firstWins + 1 then .searchFirst else .turns (firstWins + 1) 0
          after [x] (merge wins side next enough xs (y :: ys))
        else
          let next := if enough ≤ secondWins + 1 then .searchFirst else .turns 0 (secondWins + 1)
          after [y] (merge wins side next enough (x :: xs) ys)
      | .searchFirst =>
        let found := leading (fun x => wins x y) side (x :: xs)
        let rest := (x :: xs).drop found
        let result :=
          if isMerged side rest (y :: ys) then (remainder side rest (y :: ys), enough)
          else after [y] (merge wins side (.searchSecond found) enough rest ys)
        after ((x :: xs).take found) result
      | .searchSecond firstFound =>
        let found := leading (fun y => !wins x y) side (y :: ys)
        let rest := (y :: ys).drop found
        let result :=
          if isMerged side (x :: xs) rest then (remainder side (x :: xs) rest, enough)
          else if isMerged side xs rest then (x :: remainder side xs rest, enough)
          else if worthwhile ≤ firstFound ∨ worthwhile ≤ found then
            after [x] (merge wins side .searchFirst (max 1 (enough - 1)) xs rest)
          else after [x] (merge wins side (.turns 0 0) (enough + 1) xs rest)
        after ((y :: ys).take found) result
  | xs, ys => (remainder side xs ys, enough)
termination_by xs ys => xs.length + ys.length
decreasing_by all_goals grind

/-- Two neighbouring runs merged.  The elements of the first that come before all of the
second stay where they are, and so do those of the second that come after all of the first;
of the others the shorter list is laid aside. -/
def mergeRuns (precedes : α → α → Bool) (enough : Nat) (xs ys : List α) : List α × Nat :=
  let before := leading (fun x => ys.head?.any fun y => !precedes y x) .front xs
  let first := xs.drop before
  let ending := leading (fun y => first.getLast?.any fun x => !precedes y x) .back ys.reverse
  let second := (ys.reverse.drop ending).reverse
  let (merged, enough) :=
    if first.length ≤ second.length then
      after (second.take 1)
        (merge (fun x y => !precedes y x) .front (.turns 0 0) enough first (second.drop 1))
    else
      let (merged, enough) := after (first.reverse.take 1)
        (merge (fun x y => precedes y x) .back (.turns 0 0) enough (first.reverse.drop 1)
          second.reverse)
      (merged.reverse, enough)
  (xs.take before ++ merged ++ ys.drop second.length, enough)

end Sorting

end StackMachine
