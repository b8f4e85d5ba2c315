import StackMachine.Proofs.Number.Integers
import StackMachine.Proofs.Number.Rounding

/-!
# Integers as numbers

An integer that is converted to a number is rounded.  A safe integer is rounded to itself, and a
greater one to an integer that is not safe, or to infinity.  So a converted integer compares with a
safe integer as it does itself.
-/

namespace StackMachine

namespace Number

/-- The number nearest to an integer. -/
def rounding (n : Int) : Number := ofDecimal (n < 0) n.natAbs 0

/-! ### Natural numbers -/

/-- An integer of at most 53 bits is its own rounding. -/
theorem ofMagnitude_exact {n : Nat} (h : n ≤ Nat.pow 2 53) :
  ofMagnitude n 0 = int n
  := by
  rw [ofMagnitude]
  split
  · next hzero =>
    rw [hzero]
    rfl
  · have hlength : (Nat.toDigits 10 n).length ≤ 16 := by
      apply (Nat.length_toDigits_le_iff (by decide) (by decide)).mpr
      apply Nat.lt_of_le_of_lt h
      decide
    have hpower : n * powTen 0 = n := Nat.mul_one n
    simp only [Int.add_zero, hpower]
    rw [if_neg (by omega), if_neg (by omega), if_pos ⟨Int.le_refl 0, h⟩]

/-- A quotient is not rounded below its whole part. -/
theorem div_le_roundDiv (a b : Nat) :
  a / b ≤ roundDiv a b
  := by
  rw [roundDiv]
  split
  · apply Nat.le_refl
  · split
    · apply Nat.le_succ
    · split
      · apply Nat.le_refl
      · apply Nat.le_succ

/-- A number that is greater than every safe integer: infinity, or an integer. -/
inductive IsFar : Number → Prop where
  | infinity : IsFar (infinity false)
  | int {n : Nat} (h : maxSafe < n) : IsFar (int n)

/-- A natural number of more than 53 bits is not rounded to a safe number. -/
theorem isFar_nearest {n : Nat} (hn : 2 ^ 53 ≤ n) :
  IsFar (nearest n 1)
  := by
  have hle : 2 ^ 52 ≤ n := Nat.le_trans (by decide) hn
  have hlog : 53 ≤ n.log2 := (Nat.le_log2 (by omega)).mpr hn
  have hlow : 2 ^ 52 ≤ significand n 1 := by
    rw [significand_one hle]
    apply Nat.le_trans _ (div_le_roundDiv n _)
    apply (Nat.le_div_iff_mul_le (by positivity)).mpr
    rw [← Nat.pow_add, Nat.add_sub_cancel' (Nat.le_of_lt hlog)]
    exact Nat.log2_self_le (by omega)
  have hgreat : maxSafe < significand n 1 * 2 ^ (n.log2 - 52) := by
    calc maxSafe < 2 ^ 52 * 2 ^ 1 := by decide
      _ ≤ significand n 1 * 2 ^ (n.log2 - 52) :=
        Nat.mul_le_mul hlow (Nat.pow_le_pow_right (by decide) (by omega))
  simp only [nearest, lastPlace_one hle]
  split
  · exact .infinity
  · exact .int hgreat

/-- A natural number that is not safe is not rounded to a safe number. -/
theorem isFar_ofMagnitude {n : Nat} (hn : maxSafe < n) :
  IsFar (ofMagnitude n 0)
  := by
  by_cases hle : n ≤ Nat.pow 2 53
  · rw [ofMagnitude_exact hle]
    exact .int hn
  · have hpower : n * powTen 0 = n := Nat.mul_one n
    have hgt : 2 ^ 53 < n := Nat.not_le.mp hle
    rw [ofMagnitude, if_neg (by omega)]
    simp only
    split
    · exact .infinity
    · rw [if_neg (by omega), hpower, if_neg fun h => hle h.2]
      apply isFar_nearest (Nat.le_of_lt hgt)

/-! ### Integers -/

theorem rounding_of_le {n : Int} (h : n.natAbs ≤ maxSafe) :
  rounding n = .int n
  := by
  rw [rounding, ofDecimal, ofMagnitude_exact (Nat.le_trans h (by decide))]
  split
  · next hneg =>
    have hneg := of_decide_eq_true hneg
    rw [neg, if_neg (by omega)]
    congr 1
    omega
  · next hneg =>
    have hneg := of_decide_eq_false (Bool.not_eq_true _ ▸ hneg)
    congr 1
    omega

theorem isFar_rounding {n : Int} (h : (maxSafe : Int) < n) :
  IsFar (rounding n)
  := by
  rw [rounding, ofDecimal, if_neg]
  · apply isFar_ofMagnitude
    omega
  · rw [decide_eq_true_eq]
    omega

theorem IsFar.toSafeInt? {x : Number} (h : IsFar x) :
  x.toSafeInt? = none ∧ x.neg.toSafeInt? = none
  := by
  cases h with
  | infinity => exact ⟨rfl, rfl⟩
  | @int n h =>
    have hinexact (k : Int) (hk : k.natAbs = n) : (Number.int k).toSafeInt? = none := by
      rw [toSafeInt?_eq (n := k) rfl, if_neg]
      omega
    rw [neg, if_neg (by omega)]
    exact ⟨hinexact n (Int.natAbs_natCast n), hinexact (-n) (by omega)⟩

/-- An integer is rounded to itself if it is safe, and otherwise to what is not safe. -/
theorem toSafeInt?_rounding (n : Int) :
  (rounding n).toSafeInt? = if n.natAbs ≤ maxSafe then some n else none
  := by
  split
  · next h => rw [rounding_of_le h, toSafeInt?_eq (n := n) rfl, if_pos h]
  · next h =>
    have hfar := (isFar_ofMagnitude (Nat.not_le.mp h)).toSafeInt?
    rw [rounding, ofDecimal]
    split
    · exact hfar.2
    · exact hfar.1

/-! ### Comparisons -/

/-- A number that is far is above every safe integer. -/
theorem IsFar.above {x : Number} (h : IsFar x) {k : Int} (hk : k.natAbs ≤ maxSafe) :
  Number.le (.int k) x = true ∧ x.le (.int k) = false
  := by
  cases h with
  | infinity => exact ⟨rfl, rfl⟩
  | @int n h =>
    constructor
    · apply (int_le_iff (show toInt? (.int n) = some (n : Int) from rfl) k).mpr
      omega
    · apply Bool.eq_false_iff.mpr
      rw [Ne, le_int_iff (show toInt? (.int n) = some (n : Int) from rfl) k]
      omega

variable {k n : Int} (hk : k.natAbs ≤ maxSafe) (hn : 0 ≤ n)

include hk hn

theorem le_rounding_iff :
  Number.le (.int k) (rounding n) = true ↔ k ≤ n
  := by
  by_cases hsafe : n.natAbs ≤ maxSafe
  · rw [rounding_of_le hsafe]
    apply int_le_iff rfl
  · have hfar : IsFar (rounding n) := isFar_rounding (by omega)
    simp only [(hfar.above hk).1, true_iff]
    omega

theorem rounding_le_iff :
  (rounding n).le (.int k) = true ↔ n ≤ k
  := by
  by_cases hsafe : n.natAbs ≤ maxSafe
  · rw [rounding_of_le hsafe]
    apply le_int_iff rfl
  · have hfar : IsFar (rounding n) := isFar_rounding (by omega)
    rw [(hfar.above hk).2]
    simp only [Bool.false_eq_true, false_iff]
    omega

end Number

end StackMachine
