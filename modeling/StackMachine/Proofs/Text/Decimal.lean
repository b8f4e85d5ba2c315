import Mathlib.Tactic.Common
import StackMachine.Text

/-!
# Decimals

The decimal of a natural number is a run of digits, without a leading zero unless it is the
decimal of 0, and reads back as the number.  Facts about decimals are proved digit by digit,
from the last one on.  Where a run of units ends is decided by the text after it.
-/

namespace StackMachine

namespace Text

/-! ### Runs of units -/

/-- A text that does not go on with a unit of a class. -/
def Stops (P : CodeUnit → Bool) (rest : Text) : Prop := rest.head?.any P = false

/-- A run of units of a class before a text that does not go on with one. -/
theorem takeWhile_append {P : CodeUnit → Bool} {t rest : Text} (ht : ∀ u ∈ t, P u = true)
    (hrest : Stops P rest) :
  (t ++ rest).takeWhile P = t
  := by
  rw [List.takeWhile_append_of_pos ht]
  cases rest with
  | nil => rw [List.takeWhile_nil, List.append_nil]
  | cons u rest =>
    have hu : P u = false := hrest
    rw [List.takeWhile_cons_of_neg (by simp [hu]), List.append_nil]

/-- What comes after a run of units of a class. -/
theorem dropWhile_append {P : CodeUnit → Bool} {t rest : Text} (ht : ∀ u ∈ t, P u = true)
    (hrest : Stops P rest) :
  (t ++ rest).dropWhile P = rest
  := by
  rw [List.dropWhile_append_of_pos ht]
  cases rest with
  | nil => rfl
  | cons u rest =>
    have hu : P u = false := hrest
    rw [List.dropWhile_cons_of_neg (by simp [hu])]

/-! ### Digits -/

/-- The unit of a digit. -/
def digit (d : Nat) : CodeUnit := CodeUnit.ofChar (Nat.digitChar d)

theorem ofChar_digitChar :
  ∀ d < 10, ofChar (Nat.digitChar d) = [digit d]
  := by
  decide

theorem isDigit_digit :
  ∀ d < 10, (digit d).isDigit = true
  := by
  decide

theorem digitValue?_digit :
  ∀ d < 10, CodeUnit.digitValue? (digit d) = some d
  := by
  decide

theorem digit_eq_zero :
  ∀ d < 10, digit d = CodeUnit.ofChar '0' → d = 0
  := by
  decide

/-! ### Decimals of natural numbers -/

theorem ofNat_of_lt {n : Nat} (h : n < 10) :
  ofNat n = [digit n]
  := by
  rw [ofNat, Nat.toDigits_of_lt_base h, List.flatMap_singleton, ofChar_digitChar n h]

/-- The last digit of a decimal is that of the remainder modulo ten. -/
theorem ofNat_of_le {n : Nat} (h : 10 ≤ n) :
  ofNat n = ofNat (n / 10) ++ [digit (n % 10)]
  := by
  rw [ofNat, Nat.toDigits_of_base_le (by decide) h, List.flatMap_append,
    List.flatMap_singleton, ofChar_digitChar _ (Nat.mod_lt _ (by decide))]
  rfl

/-- What holds of one digit, and of a decimal with one digit more, holds of the decimals of
all natural numbers. -/
theorem ofNat_induction {P : Nat → Text → Prop} (hdigit : ∀ d < 10, P d [digit d])
    (hmore : ∀ n d t, 0 < n → d < 10 → P n t → P (10 * n + d) (t ++ [digit d])) (n : Nat) :
  P n (ofNat n)
  := by
  induction n using Nat.strongRecOn with
  | _ n ih =>
    by_cases h : n < 10
    · rw [ofNat_of_lt h]
      apply hdigit n h
    · have hn : 10 ≤ n := Nat.not_lt.mp h
      have := hmore (n / 10) (n % 10) _ (by omega) (by omega) (ih (n / 10) (by omega))
      rw [Nat.div_add_mod] at this
      rw [ofNat_of_le hn]
      apply this

theorem isDigit_of_mem_ofNat {n : Nat} :
  ∀ u ∈ ofNat n, u.isDigit = true
  := by
  apply ofNat_induction (P := fun _ t => ∀ u ∈ t, u.isDigit = true)
  · intro d hd u hu
    rw [List.mem_singleton.mp hu]
    apply isDigit_digit d hd
  · intro n d t _ hd ih u hu
    rcases List.mem_append.mp hu with hu | hu
    · apply ih u hu
    · rw [List.mem_singleton.mp hu]
      apply isDigit_digit d hd

/-- A decimal is not empty, and one that begins with 0 is that of 0. -/
theorem head?_ofNat (n : Nat) :
  ofNat n ≠ [] ∧ ((ofNat n).head? = some (CodeUnit.ofChar '0') → n = 0)
  := by
  apply ofNat_induction
    (P := fun n t => t ≠ [] ∧ (t.head? = some (CodeUnit.ofChar '0') → n = 0))
  · intro d hd
    constructor
    · rintro ⟨⟩
    · intro h
      apply digit_eq_zero d hd
      injection h
  · intro n d t hn hd ⟨hne, ih⟩
    constructor
    · simp
    · intro h
      cases t with
      | nil => cases hne rfl
      | cons u t =>
        have := ih h
        omega

theorem ofNat_ne_nil (n : Nat) :
  ofNat n ≠ []
  := (head?_ofNat n).1

/-- A decimal begins with a digit, which is no minus sign. -/
theorem exists_cons_ofNat (n : Nat) :
  ∃ u r, ofNat n = u :: r ∧ u.isDigit = true ∧ u ≠ CodeUnit.ofChar '-'
  := by
  obtain ⟨u, r, hu⟩ := List.exists_cons_of_ne_nil (ofNat_ne_nil n)
  have hdigit : u.isDigit = true := by
    apply isDigit_of_mem_ofNat (n := n)
    rw [hu]
    apply List.mem_cons_self
  refine ⟨u, r, hu, hdigit, ?_⟩
  rintro rfl
  contradiction

theorem digitsValue_append_digit (t : Text) {d : Nat} (hd : d < 10) :
  digitsValue 10 (t ++ [digit d]) = 10 * digitsValue 10 t + d
  := by
  rw [digitsValue, List.foldl_append, List.foldl_cons, List.foldl_nil,
    digitValue?_digit d hd]
  rfl

/-- The decimal of a number denotes it. -/
theorem digitsValue_ofNat (n : Nat) :
  digitsValue 10 (ofNat n) = n
  := by
  apply ofNat_induction (P := fun n t => digitsValue 10 t = n)
  · intro d hd
    rw [← List.nil_append [digit d], digitsValue_append_digit [] hd]
    simp [digitsValue]
  · intro n d t _ hd ih
    rw [digitsValue_append_digit t hd, ih]

theorem ofNat_injective {m n : Nat} (h : ofNat m = ofNat n) :
  m = n
  := by
  rw [← digitsValue_ofNat m, h, digitsValue_ofNat]

/-! ### Decimals of integers -/

/-- The decimal of an integer denotes it. -/
theorem toInt?_ofInt (v : Int) :
  toInt? (ofInt v) = some v
  := by
  cases v with
  | ofNat n =>
    obtain ⟨u, r, hu, -, hsign⟩ := exists_cons_ofNat n
    rw [ofInt, hu, toInt?, if_neg hsign, ← hu, if_pos, digitsValue_ofNat]
    · rfl
    · apply List.all_eq_true.mpr isDigit_of_mem_ofNat
  | negSucc n =>
    rw [ofInt, toInt?, if_pos rfl, if_pos, digitsValue_ofNat]
    · rfl
    · constructor
      · apply ofNat_ne_nil
      · apply List.all_eq_true.mpr isDigit_of_mem_ofNat

end Text

end StackMachine
