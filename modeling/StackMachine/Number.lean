/-!
# Numbers

A number is a binary floating-point number with 53 significant bits, given by its exact
value: an integer, a fraction whose denominator is a power of two, negative zero, an
infinity, or the one value that is not a number.  The file defines the type, its order,
and the tests by which numbers serve as integers and as positions in a list.
-/

namespace StackMachine

/-- A floating-point number by its exact value.  A value has one form: `fraction m k` is
`m / 2 ^ k` with `m` odd and `k` positive. -/
inductive Number where
  | int (n : Int)
  | negativeZero
  | fraction (numerator : Int) (exponent : Nat)
  | infinity (negative : Bool)
  | nan
deriving DecidableEq, Repr, Inhabited

namespace Number

/-- The greatest integer below which every integer is a number, `2 ^ 53 - 1`. -/
def maxSafe : Nat := 0x1FFFFFFFFFFFFF

/-- A natural number as a number. -/
def ofNat (n : Nat) : Number := int n

/-- The number `m / 2 ^ k` in its one form. -/
def ratio (m : Int) : Nat → Number
  | 0 => int m
  | k + 1 => if m % 2 = 0 then ratio (m / 2) k else fraction m (k + 1)

/-- The number `m * 2 ^ e` in its one form. -/
def scaled (m : Int) : Int → Number
  | .ofNat e => int (m * Nat.pow 2 e)
  | .negSucc e => ratio m (e + 1)

/-- The number with the opposite sign; zero and negative zero are exchanged. -/
def neg : Number → Number
  | int n => if n = 0 then negativeZero else int (-n)
  | negativeZero => int 0
  | fraction m k => fraction (-m) k
  | infinity s => infinity (!s)
  | nan => nan

/-- The integer that a number is; negative zero is the integer 0. -/
def toInt? : Number → Option Int
  | int n => some n
  | negativeZero => some 0
  | _ => none

/-- Whether a number is an integer. -/
def isInteger (x : Number) : Bool := x.toInt?.isSome

/-- The integer that a number is, if it is at most `maxSafe` in absolute value. -/
def toSafeInt? (x : Number) : Option Int :=
  x.toInt?.filter fun n => n.natAbs ≤ maxSafe

/-- The position that a number names: an integer that is not negative. -/
def toIndex? (x : Number) : Option Nat :=
  x.toInt?.bind fun n => if 0 ≤ n then some n.toNat else none

/-- The numerator of a finite number over a power of two, and the power. -/
def toRatio? : Number → Option (Int × Nat)
  | int n => some (n, 0)
  | negativeZero => some (0, 0)
  | fraction m k => some (m, k)
  | _ => none

/-- The order of the numbers; what is not a number is in no relation. -/
def le (x y : Number) : Bool :=
  match x, y with
  | nan, _ => false
  | _, nan => false
  | infinity true, _ => true
  | _, infinity false => true
  | infinity false, _ => false
  | _, infinity true => false
  | _, _ =>
    match x.toRatio?, y.toRatio? with
    | some (m, j), some (n, k) => m * Nat.pow 2 k ≤ n * Nat.pow 2 j
    | _, _ => false

/-- Negative zero replaced by zero; every other number is left as it is. -/
def unsigned : Number → Number
  | negativeZero => int 0
  | x => x

end Number

end StackMachine
