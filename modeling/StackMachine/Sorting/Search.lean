/-!
# Searching in runs

`leading` tells how many elements at the beginning of a list have a property, if it is one
that only elements at the beginning have.  It looks at a few elements only: at those whose
distance from the beginning doubles, and then at the middle of what is left.  Of a property
that other elements have too it tells a number that depends on which were looked at.
-/

namespace StackMachine

namespace Sorting

/-- The end of a list from which it is worked on.  The elements are given in the order in
which they are met, and so from the last to the first at the back. -/
inductive Side where
  | front
  | back
deriving DecidableEq, Repr

/-- The end of the positions with a property between two bounds, found by halving.  Of two
positions in the middle the one nearer to the back of the list is taken. -/
def bisect (holds : Nat → Bool) (side : Side) (low high : Nat) : Nat :=
  if low < high then
    let middle := low + (high - low - (if side = .front then 0 else 1)) / 2
    if holds middle then bisect holds side (middle + 1) high else bisect holds side low middle
  else high
termination_by high - low
decreasing_by all_goals grind

/-- The last position with the property among those met before one without it or before the
end, and where that is.  Each step is twice as long as the one before. -/
def stride (holds : Nat → Bool) (size last next : Nat) : Nat × Nat :=
  if next < size ∧ holds next then stride holds size next (2 * next + 1)
  else (last, min next size)
termination_by size - next
decreasing_by omega

/-- How many of so many positions have a property. -/
def gallop (holds : Nat → Bool) (side : Side) (size : Nat) : Nat :=
  if 0 < size ∧ holds 0 then
    let (last, next) := stride holds size 0 1
    bisect holds side (last + 1) next
  else 0

variable {α : Type}

/-- Whether the element at a position has a property. -/
def holdsAt (holds : α → Bool) (xs : List α) (n : Nat) : Bool := xs[n]?.any holds

/-- How many elements at the beginning of a list have a property. -/
def leading (holds : α → Bool) (side : Side) (xs : List α) : Nat :=
  gallop (holdsAt holds xs) side xs.length

end Sorting

end StackMachine
