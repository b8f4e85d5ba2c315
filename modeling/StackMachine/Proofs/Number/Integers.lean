import Mathlib.Tactic.Common
import StackMachine.Number

/-!
# Numbers that are integers

A number that is an integer is compared with integers as that integer is.  It is safe if the
integer is not too great, and it names a position if the integer is not negative; negative zero
is the integer 0 in all of this.
-/

namespace StackMachine

namespace Number

section

variable {x : Number} {n : Int} (h : x.toInt? = some n)

include h in
theorem le_int_iff (k : Int) :
  x.le (.int k) = true ↔ n ≤ k
  := by
  cases x with
  | int | negativeZero =>
    cases h
    simp [le, toRatio?]
  | fraction | infinity | nan => cases h

include h in
theorem int_le_iff (k : Int) :
  Number.le (.int k) x = true ↔ k ≤ n
  := by
  cases x with
  | int | negativeZero =>
    cases h
    simp [le, toRatio?]
  | fraction | infinity | nan => cases h

include h in
theorem toSafeInt?_eq :
  x.toSafeInt? = if n.natAbs ≤ maxSafe then some n else none
  := by
  rw [toSafeInt?, h, Option.filter_some]
  simp only [decide_eq_true_eq]

end

/-- A number is safe if it is an integer of at most `maxSafe` in absolute value. -/
theorem toSafeInt?_eq_some_iff {x : Number} {n : Int} :
  x.toSafeInt? = some n ↔ x.toInt? = some n ∧ n.natAbs ≤ maxSafe
  := by
  rw [toSafeInt?, Option.filter_eq_some_iff]
  simp only [decide_eq_true_eq]

/-- A number that is an integer is that integer, but for the sign of zero. -/
theorem unsigned_of_toInt? {x : Number} {n : Int} (h : x.toInt? = some n) :
  x.unsigned = int n
  := by
  cases x with
  | int | negativeZero =>
    cases h
    rfl
  | fraction | infinity | nan => cases h

/-! ### Positions -/

/-- The position that a number names is the integer that it is. -/
theorem toIndex?_eq_some_iff {x : Number} {t : Nat} :
  x.toIndex? = some t ↔ x.toInt? = some (t : Int)
  := by
  rw [toIndex?]
  cases x.toInt? with
  | none => simp
  | some n =>
    rw [Option.bind_some, Option.some.injEq]
    split
    · rw [Option.some.injEq]
      omega
    · simp only [reduceCtorEq, false_iff]
      omega

theorem toIndex?_ofNat (n : Nat) :
  (ofNat n).toIndex? = some n
  := toIndex?_eq_some_iff.mpr rfl

theorem ofNat_injective {m n : Nat} (h : ofNat m = ofNat n) :
  m = n
  := by
  injection h with h
  apply Int.ofNat.inj h

theorem le_ofNat {m n : Nat} :
  (ofNat m).le (ofNat n) = true ↔ m ≤ n
  := by
  rw [ofNat, int_le_iff rfl, Int.ofNat_le]

/-- A position is past the end of a program exactly if the number that names it is. -/
theorem ofNat_le_of_toIndex? {x : Number} {n t : Nat} (h : x.toIndex? = some t) :
  (ofNat n).le x = true ↔ n ≤ t
  := by
  rw [ofNat, int_le_iff (toIndex?_eq_some_iff.mp h), Int.ofNat_le]

/-- A number that names a position is the position, but for the sign of zero. -/
theorem unsigned_of_toIndex? {x : Number} {t : Nat} (h : x.toIndex? = some t) :
  x.unsigned = ofNat t
  := unsigned_of_toInt? (toIndex?_eq_some_iff.mp h)

end Number

end StackMachine
