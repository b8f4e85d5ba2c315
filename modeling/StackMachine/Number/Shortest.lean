import StackMachine.Number.Rounding
import StackMachine.Text

/-!
# The shortest decimal

`Number.toText` writes a number with the fewest digits that read back as the same number,
and of those the ones nearest to it.  The digits are found on grids of ever finer powers
of ten: on each grid only the two neighbours of the number can lie in the interval of
values that round to it.  A number of at most 21 places before the point, or of at most
six zeros after it, is written without an exponent.
-/

namespace StackMachine

namespace Number

/-- A positive number `bits * 2 ^ place` together with the values that round to it: from
`low` to `high`, both in quarters of the last place, the ends included or not. -/
structure Interval where
  bits : Nat
  place : Int
  low : Nat
  high : Nat
  closed : Bool
deriving Repr

/-- The interval of a positive number `a / b`.  Below a power of two the next number is
only half as far away. -/
def interval (a b : Nat) : Interval :=
  let m := significand a b
  let q := lastPlace a b
  { bits := m
    place := q
    low := if m = Nat.pow 2 52 ∧ -1074 < q then 4 * m - 1 else 4 * m - 2
    high := 4 * m + 2
    closed := m % 2 = 0 }

namespace Interval

/-- Quarters of the last place, brought to one denominator with the grid `10 ^ p`. -/
def quarters (i : Interval) (p : Int) (n : Nat) : Nat :=
  n * powTwo (i.place - 2) * powTen (-p)

/-- A point of the grid `10 ^ p`, brought to one denominator with the quarters. -/
def gridPoint (i : Interval) (p : Int) (s : Nat) : Nat :=
  s * powTen p * powTwo (2 - i.place)

/-- Whether the point `s` of the grid `10 ^ p` rounds to the number. -/
def contains (i : Interval) (p : Int) (s : Nat) : Bool :=
  let point := i.gridPoint p s
  let low := i.quarters p i.low
  let high := i.quarters p i.high
  if i.closed then low ≤ point && point ≤ high else low < point && point < high

/-- The point of the grid `10 ^ p` just below the number, or at it. -/
def floor (i : Interval) (p : Int) : Nat :=
  i.quarters p (4 * i.bits) / (powTen p * powTwo (2 - i.place))

/-- The point of the grid `10 ^ p` that rounds to the number, the nearer of two. -/
def pick? (i : Interval) (p : Int) : Option Nat :=
  let s := i.floor p
  match i.contains p s, i.contains p (s + 1) with
  | true, true =>
    let below := i.quarters p (4 * i.bits) - i.gridPoint p s
    let above := i.gridPoint p (s + 1) - i.quarters p (4 * i.bits)
    if below < above then some s
    else if above < below then some (s + 1)
    else if s % 2 = 0 then some s else some (s + 1)
  | true, false => some s
  | false, true => some (s + 1)
  | false, false => none

end Interval

/-- The number of places before the decimal point of `a / b`, for positive `a` and `b`. -/
def places (a b : Nat) : Int :=
  let n : Int := ((Nat.toDigits 10 a).length : Int) - (Nat.toDigits 10 b).length
  if b * powTen n ≤ a * powTen (-n) then n + 1 else n

/-- The digits and the exponent of the shortest decimal of `a / b`: with 1, 2, … digits,
the first that reads back.  Seventeen digits always do. -/
def shortest (a b : Nat) : Nat × Int :=
  let i := interval a b
  let n := places a b
  let found := (List.range 17).findSome? fun (k : Nat) =>
    let p := n - ((k : Int) + 1)
    (i.pick? p).map fun s => (s, p)
  found.getD (i.floor (n - 17), n - 17)

/-- Digits written with the decimal point after the first `n` of them. -/
def pointed (digits : Text) (n : Int) : Text :=
  let k := digits.length
  if k ≤ n ∧ n ≤ 21 then digits ++ List.replicate (n.toNat - k) (CodeUnit.ofChar '0')
  else if 0 < n ∧ n ≤ 21 then
    digits.take n.toNat ++ CodeUnit.ofChar '.' :: digits.drop n.toNat
  else if -6 < n ∧ n ≤ 0 then
    Text.ofString "0." ++ List.replicate (-n).toNat (CodeUnit.ofChar '0') ++ digits
  else
    let mantissa := match digits with
      | d :: e :: r => d :: CodeUnit.ofChar '.' :: e :: r
      | _ => digits
    let exponent := n - 1
    mantissa ++ Text.ofString (if exponent < 0 then "e-" else "e+") ++ Text.ofNat exponent.natAbs

/-- The text of a positive number `a / b`. -/
def magnitudeText (a b : Nat) : Text :=
  let (s, p) := shortest a b
  let all := Text.ofNat s
  let digits := (all.reverse.dropWhile (· == CodeUnit.ofChar '0')).reverse
  pointed digits (all.length + p)

/-- The text of a number: integers up to `2 ^ 53` in all their digits, the others by
their shortest decimal. -/
def toText : Number → Text
  | int n =>
    if n.natAbs ≤ Nat.pow 2 53 then Text.ofInt n
    else if n < 0 then CodeUnit.ofChar '-' :: magnitudeText n.natAbs 1
    else magnitudeText n.natAbs 1
  | negativeZero => Text.ofString "0"
  | fraction m k =>
    if m < 0 then CodeUnit.ofChar '-' :: magnitudeText m.natAbs (Nat.pow 2 k)
    else magnitudeText m.natAbs (Nat.pow 2 k)
  | infinity true => Text.ofString "-Infinity"
  | infinity false => Text.ofString "Infinity"
  | nan => Text.ofString "NaN"

end Number

end StackMachine
