import StackMachine.Fault

/-!
# Words

A word is an integer from `-2 ^ 63` to `2 ^ 63 - 1`.  The operators compute on integers
and fault instead of leaving that range; as a truth value only 1 is true.
-/

namespace StackMachine

namespace Word

/-- The least word, `-2 ^ 63`. -/
def least : Int := -0x8000000000000000

/-- The greatest word, `2 ^ 63 - 1`. -/
def greatest : Int := 0x7FFFFFFFFFFFFFFF

/-- The integers that are words. -/
abbrev IsWord (n : Int) : Prop := least ≤ n ∧ n ≤ greatest

/-- Whether a word is true: only 1 is. -/
def isTrue (w : Int) : Bool := w = 1

/-- The word of a truth value. -/
def ofBool (b : Bool) : Int := if b then 1 else 0

/-- An exact result, if it is a word. -/
def checked (op : BinaryOperator ⊕ UnaryOperator) (n : Int) : Except Fault Int :=
  if IsWord n then .ok n else .error (.overflow op)

end Word

open Word

/-- An operator applied to two words.  Division truncates toward zero and the remainder
has the sign of the dividend; both fault for the divisor 0, and for `least` by `-1`, whose
quotient is no word. -/
def BinaryOperator.apply (op : BinaryOperator) (lhs rhs : Int) : Except Fault Int :=
  match op with
  | add => checked (.inl add) (lhs + rhs)
  | sub => checked (.inl sub) (lhs - rhs)
  | mul => checked (.inl mul) (lhs * rhs)
  | div => if rhs = 0 then .error .divisionByZero else checked (.inl div) (lhs.tdiv rhs)
  | mod =>
    if rhs = 0 then .error .moduloByZero
    else if lhs = least ∧ rhs = -1 then .error (.overflow (.inl mod))
    else .ok (lhs.tmod rhs)
  | and => .ok (ofBool (isTrue lhs && isTrue rhs))
  | or => .ok (ofBool (isTrue lhs || isTrue rhs))
  | eq => .ok (ofBool (lhs = rhs))
  | neq => .ok (ofBool (lhs ≠ rhs))
  | lt => .ok (ofBool (lhs < rhs))
  | le => .ok (ofBool (lhs ≤ rhs))
  | gt => .ok (ofBool (rhs < lhs))
  | ge => .ok (ofBool (rhs ≤ lhs))

/-- An operator applied to one word. -/
def UnaryOperator.apply (op : UnaryOperator) (w : Int) : Except Fault Int :=
  match op with
  | neg => checked (.inr neg) (-w)
  | not => .ok (ofBool !(isTrue w))

end StackMachine
