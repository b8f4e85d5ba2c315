import Mathlib.Algebra.Order.Field.Power
import Mathlib.Data.Nat.Log
import Mathlib.Data.Rat.Cast.Order
import Mathlib.Tactic.Linarith
import Mathlib.Tactic.Positivity
import Mathlib.Tactic.Ring
import StackMachine.Number.Literal

/-!
# Significant bits

Every integer that is read as a number has at most 53 significant bits: rounding keeps no more,
and an integer that is small enough to be read exactly has no more to begin with.
-/

namespace StackMachine

namespace Number

/-- A natural number that has at most 53 significant bits: all below its first 53 are zero. -/
def Has53Bits (n : Nat) : Prop := 2 ^ (n.log2 - 52) ∣ n

/-- A multiple of a power of two that has at most 53 bits, or the first number with more. -/
theorem has53Bits_mul {m : Nat} (hm : m ≤ 2 ^ 53) (e : Nat) :
  Has53Bits (m * 2 ^ e)
  := by
  rcases Nat.eq_zero_or_pos m with rfl | hpos
  · rw [Nat.zero_mul]
    apply Nat.dvd_zero
  · have hne : m * 2 ^ e ≠ 0 := by positivity
    rcases Nat.eq_or_lt_of_le hm with rfl | hlt
    · rw [Has53Bits, ← Nat.pow_add, Nat.log2_two_pow]
      apply Nat.pow_dvd_pow
      omega
    · have hlog : (m * 2 ^ e).log2 < 53 + e := by
        apply (Nat.log2_lt hne).mpr
        rw [Nat.pow_add]
        apply Nat.mul_lt_mul_of_pos_right hlt
        positivity
      apply Nat.dvd_trans (Nat.pow_dvd_pow 2 _) (Nat.dvd_mul_left _ _)
      omega

theorem has53Bits_of_le {n : Nat} (h : n ≤ 2 ^ 53) :
  Has53Bits n
  := by
  have := has53Bits_mul h 0
  rw [Nat.pow_zero, Nat.mul_one] at this
  exact this

/-! ### Powers -/

theorem powTwo_natCast (n : Nat) :
  powTwo n = 2 ^ n
  := rfl

theorem powTwo_neg_natCast (n : Nat) :
  powTwo (-n) = 1
  := by
  rw [powTwo, Int.toNat_neg_natCast]

theorem powTen_natCast (n : Nat) :
  powTen n = 10 ^ n
  := rfl

theorem powTen_neg_natCast (n : Nat) :
  powTen (-n) = 1
  := by
  rw [powTen, Int.toNat_neg_natCast]

/-! ### Rounding -/

/-- Two quotients by powers of two compare as rational numbers do. -/
theorem mul_powTwo_lt_iff (a b : Nat) (k : Int) :
  a * powTwo (-k) < b * powTwo k ↔ (a : ℚ) < b * 2 ^ k
  := by
  cases k with
  | ofNat n =>
    rw [Int.ofNat_eq_natCast, powTwo_neg_natCast, powTwo_natCast, Nat.mul_one, zpow_natCast]
    norm_cast
  | negSucc n =>
    have hneg : powTwo (-Int.negSucc n) = 2 ^ (n + 1) := rfl
    have hpos : powTwo (Int.negSucc n) = 1 := rfl
    rw [hneg, hpos, Nat.mul_one, zpow_negSucc, ← div_eq_mul_inv, lt_div_iff₀ (by positivity)]
    norm_cast

/-- A quotient is less than the power of two after its binary exponent. -/
theorem lt_two_zpow_binaryExponent (a : Nat) {b : Nat} (hb : 0 < b) :
  (a : ℚ) < b * 2 ^ (binaryExponent a b + 1)
  := by
  simp only [binaryExponent]
  split
  · have ha : (a : ℚ) < 2 ^ ((a.log2 : Int) + 1) := by
      rw [← Nat.cast_succ, zpow_natCast]
      exact_mod_cast Nat.lt_log2_self
    have hb : (2 : ℚ) ^ (b.log2 : Int) ≤ b := by
      rw [zpow_natCast]
      exact_mod_cast Nat.log2_self_le (Nat.pos_iff_ne_zero.mp hb)
    calc (a : ℚ) < 2 ^ ((a.log2 : Int) + 1) := ha
      _ = 2 ^ (b.log2 : Int) * 2 ^ ((a.log2 : Int) - b.log2 + 1) := by
        rw [← zpow_add₀ two_ne_zero]
        congr 1
        ring
      _ ≤ b * 2 ^ ((a.log2 : Int) - b.log2 + 1) := by
        apply mul_le_mul_of_nonneg_right hb
        positivity
  · next h =>
    rw [sub_add_cancel]
    apply (mul_powTwo_lt_iff _ _ _).mp (Nat.not_le.mp h)

theorem roundDiv_le {a b n : Nat} (h : a < n * b) :
  roundDiv a b ≤ n
  := by
  have hlt : a / b < n := Nat.div_lt_of_lt_mul (by rwa [Nat.mul_comm])
  rw [roundDiv]
  split
  · omega
  · split
    · omega
    · split <;> omega

/-- Rounding keeps 53 bits, or gives the first number with more. -/
theorem significand_le (a : Nat) {b : Nat} (hb : 0 < b) :
  significand a b ≤ 2 ^ 53
  := by
  apply roundDiv_le
  rw [← Nat.mul_assoc]
  apply (mul_powTwo_lt_iff _ _ _).mpr
  have hplace : binaryExponent a b + 1 ≤ 53 + lastPlace a b := by
    rw [lastPlace]
    omega
  calc (a : ℚ) < b * 2 ^ (binaryExponent a b + 1) := lt_two_zpow_binaryExponent a hb
    _ ≤ b * 2 ^ (53 + lastPlace a b) := by
      apply mul_le_mul_of_nonneg_left _ (Nat.cast_nonneg b)
      exact zpow_le_zpow_right₀ one_le_two hplace
    _ = ((2 ^ 53 * b : Nat) : ℚ) * 2 ^ lastPlace a b := by
      rw [zpow_add₀ two_ne_zero]
      push_cast
      ring

/-! ### Integers -/

/-- An integer that a number is has at most 53 significant bits. -/
def IsRounded (x : Number) : Prop := ∀ n, x.toInt? = some n → Has53Bits n.natAbs

theorem isRounded_int {n : Nat} (h : n ≤ 2 ^ 53) :
  (int n).IsRounded
  := by
  rintro _ ⟨⟩
  apply has53Bits_of_le h

/-- A quotient by a power of two that is an integer is no greater than the numerator. -/
theorem natAbs_le_of_ratio {m : Int} {k : Nat} {n : Int} (h : (ratio m k).toInt? = some n) :
  n.natAbs ≤ m.natAbs
  := by
  induction k generalizing m with
  | zero =>
    cases h
    apply Nat.le_refl
  | succ k ih =>
    rw [ratio] at h
    split at h
    · have := ih h
      omega
    · cases h

theorem isRounded_scaled {m : Nat} (hm : m ≤ 2 ^ 53) (e : Int) :
  (scaled m e).IsRounded
  := by
  cases e with
  | ofNat e =>
    rintro _ ⟨⟩
    apply has53Bits_mul hm e
  | negSucc e =>
    intro n hn
    apply has53Bits_of_le
    apply Nat.le_trans (natAbs_le_of_ratio hn) hm

theorem isRounded_nearest (a : Nat) {b : Nat} (hb : 0 < b) :
  (nearest a b).IsRounded
  := by
  simp only [nearest]
  split
  · rintro _ ⟨⟩
  · apply isRounded_scaled (significand_le a hb)

theorem isRounded_ofMagnitude (digits : Nat) (exponent : Int) :
  (ofMagnitude digits exponent).IsRounded
  := by
  simp only [ofMagnitude]
  split
  · apply isRounded_int (Nat.zero_le _)
  · split
    · rintro _ ⟨⟩
    · split
      · apply isRounded_int (Nat.zero_le _)
      · split
        · next h => apply isRounded_int h.2
        · apply isRounded_nearest
          exact Nat.pow_pos (by decide)

theorem isRounded_neg {x : Number} (h : x.IsRounded) :
  x.neg.IsRounded
  := by
  cases x with
  | int n =>
    rw [neg]
    split
    · rintro _ ⟨⟩
      apply has53Bits_of_le (Nat.zero_le _)
    · rintro _ ⟨⟩
      rw [Int.natAbs_neg]
      apply h n rfl
  | negativeZero =>
    rintro _ ⟨⟩
    apply has53Bits_of_le (Nat.zero_le _)
  | fraction | infinity | nan => rintro _ ⟨⟩

/-- A decimal that is read as an integer has at most 53 significant bits. -/
theorem isRounded_ofDecimal (negative : Bool) (digits : Nat) (exponent : Int) :
  (ofDecimal negative digits exponent).IsRounded
  := by
  rw [ofDecimal]
  split
  · apply isRounded_neg (isRounded_ofMagnitude digits exponent)
  · apply isRounded_ofMagnitude

theorem isRounded_jsonUnsigned? {negative : Bool} {s rest : Text} {x : Number}
    (h : jsonUnsigned? negative s = some (x, rest)) :
  x.IsRounded
  := by
  simp only [jsonUnsigned?, bind, Option.bind_eq_some_iff, Prod.exists, Option.some.injEq,
    Prod.mk.injEq] at h
  obtain ⟨_, _, -, _, _, -, _, _, -, rfl, -⟩ := h
  apply isRounded_ofDecimal

/-- A numeral that is read as an integer has at most 53 significant bits. -/
theorem isRounded_json? {s rest : Text} {x : Number} (h : json? s = some (x, rest)) :
  x.IsRounded
  := by
  cases s with
  | nil => cases h
  | cons u r =>
    rw [json?] at h
    split at h
    · apply isRounded_jsonUnsigned? h
    · apply isRounded_jsonUnsigned? h

end Number

end StackMachine
