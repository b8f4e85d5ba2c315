import StackMachine.Number

/-!
# Rounding to a number

`Number.ofDecimal` gives the number nearest to a decimal `digits * 10 ^ exponent`.  A
value half-way between two numbers goes to the one whose last bit is 0, a value at or
above `2 ^ 1024` after rounding is infinite, and the last place is never below
`2 ^ (-1074)`.
-/

namespace StackMachine

namespace Number

/-- The power of two with a natural exponent, and 1 for a negative exponent. -/
def powTwo (e : Int) : Nat := Nat.pow 2 e.toNat

/-- The power of ten with a natural exponent, and 1 for a negative exponent. -/
def powTen (e : Int) : Nat := Nat.pow 10 e.toNat

/-- The quotient `a / b` rounded to the nearest integer, a half to the even one. -/
def roundDiv (a b : Nat) : Nat :=
  let q := a / b
  let r := a % b
  if 2 * r < b then q
  else if b < 2 * r then q + 1
  else if q % 2 = 0 then q else q + 1

/-- The greatest `e` with `2 ^ e ≤ a / b`, for positive `a` and `b`. -/
def binaryExponent (a b : Nat) : Int :=
  let e : Int := (a.log2 : Int) - b.log2
  if b * powTwo e ≤ a * powTwo (-e) then e else e - 1

/-- The exponent of the last place of a number near `a / b`: 53 bits are kept, and no
place is below `-1074`. -/
def lastPlace (a b : Nat) : Int := max (binaryExponent a b - 52) (-1074)

/-- The significant bits of the number nearest to `a / b`, as a multiple of the last
place. -/
def significand (a b : Nat) : Nat :=
  roundDiv (a * powTwo (-lastPlace a b)) (b * powTwo (lastPlace a b))

/-- The number nearest to `a / b`, for positive `a` and `b`. -/
def nearest (a b : Nat) : Number :=
  let q := lastPlace a b
  let m := significand a b
  if Nat.pow 2 1024 ≤ m * powTwo q then infinity false else scaled m q

/-- The number nearest to `digits * 10 ^ exponent`, without a sign.  Integers up to
`2 ^ 53` are exact; exponents far outside the range are settled by their size. -/
def ofMagnitude (digits : Nat) (exponent : Int) : Number :=
  if digits = 0 then int 0
  else
    let size := (Nat.toDigits 10 digits).length + exponent
    if 400 < size then infinity false
    else if size < -400 then int 0
    else if 0 ≤ exponent ∧ digits * powTen exponent ≤ Nat.pow 2 53 then
      int (digits * powTen exponent : Nat)
    else nearest (digits * powTen exponent) (powTen (-exponent))

/-- The number nearest to `digits * 10 ^ exponent`, with a sign. -/
def ofDecimal (negative : Bool) (digits : Nat) (exponent : Int) : Number :=
  if negative then (ofMagnitude digits exponent).neg else ofMagnitude digits exponent

end Number

end StackMachine
