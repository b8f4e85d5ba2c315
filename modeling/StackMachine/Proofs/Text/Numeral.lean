import Mathlib.Data.List.Induction
import Mathlib.Data.Nat.Digits.Defs
import Mathlib.Tactic.Common
import StackMachine.Text

/-!
# Numerals

A numeral is a run of digits, at least one, perhaps after a minus sign.  What it denotes is given by
the digits in base ten, however many there are; exactly the numerals are read as integers.
-/

namespace StackMachine

namespace Text

/-- The natural number that digits denote in base ten, the last digit being the least. -/
def decimalValue (digits : Text) : Nat :=
  Nat.ofDigits 10 (digits.reverse.map fun u => u.toNat - 0x30)

/-- A text is a numeral that denotes an integer: digits, or digits after a minus sign. -/
inductive Denotes : Text → Int → Prop where
  | plain {digits : Text} (hne : digits ≠ []) (hdigits : ∀ u ∈ digits, u.isDigit = true) :
      Denotes digits (decimalValue digits)
  | minus {digits : Text} (hne : digits ≠ []) (hdigits : ∀ u ∈ digits, u.isDigit = true) :
      Denotes (CodeUnit.ofChar '-' :: digits) (-(decimalValue digits))

theorem decimalValue_append (digits : Text) (u : CodeUnit) :
  decimalValue (digits ++ [u]) = 10 * decimalValue digits + (u.toNat - 0x30)
  := by
  rw [decimalValue, List.reverse_append, List.reverse_singleton, List.singleton_append,
    List.map_cons, Nat.ofDigits_cons, Nat.add_comm]
  rfl

/-- Reading digits from left to right gives what they denote. -/
theorem digitsValue_eq {digits : Text} (h : ∀ u ∈ digits, u.isDigit = true) :
  digitsValue 10 digits = decimalValue digits
  := by
  induction digits using List.reverseRecOn with
  | nil => rfl
  | append_singleton digits u ih =>
    have hu : CodeUnit.digitValue? u = some (u.toNat - 0x30) := by
      rw [CodeUnit.digitValue?, if_pos (h u (by simp))]
    rw [digitsValue, List.foldl_append, List.foldl_cons, List.foldl_nil, hu, Option.getD_some,
      decimalValue_append, ← ih fun v hv => h v (List.mem_append_left _ hv)]
    rfl

/-- A text is read as an integer exactly if it is a numeral, and then as the integer that the numeral
denotes. -/
theorem toInt?_eq_some_iff {t : Text} {n : Int} :
  toInt? t = some n ↔ t.Denotes n
  := by
  constructor
  · intro h
    rw [toInt?.eq_def] at h
    split at h
    · cases h
    · next u r =>
      split at h
      · next hminus =>
        split at h
        · next hr =>
          cases h
          have hdigits := List.all_eq_true.mp hr.2
          rw [hminus, digitsValue_eq hdigits]
          apply Denotes.minus hr.1 hdigits
        · cases h
      · split at h
        · next hr =>
          cases h
          have hdigits := List.all_eq_true.mp hr
          rw [digitsValue_eq hdigits]
          apply Denotes.plain (List.cons_ne_nil u r) hdigits
        · cases h
  · intro h
    cases h with
    | plain hne hdigits =>
      obtain ⟨u, r, rfl⟩ := List.exists_cons_of_ne_nil hne
      have hsign : u ≠ CodeUnit.ofChar '-' := by
        rintro rfl
        have := hdigits _ List.mem_cons_self
        contradiction
      rw [toInt?, if_neg hsign, if_pos (List.all_eq_true.mpr hdigits), digitsValue_eq hdigits]
    | minus hne hdigits =>
      rw [toInt?, if_pos rfl, if_pos ⟨hne, List.all_eq_true.mpr hdigits⟩, digitsValue_eq hdigits]

end Text

end StackMachine
