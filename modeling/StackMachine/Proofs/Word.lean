import Mathlib.Tactic.Common
import StackMachine.Word

/-!
# Results of operators

Whatever an operator makes of words is a word, unless it faults.
-/

namespace StackMachine

namespace Word

theorem isWord_zero :
  IsWord 0
  := by decide

theorem isWord_ofBool (b : Bool) :
  IsWord (ofBool b)
  := by
  cases b <;> decide

/-- A result that is tested is a word. -/
theorem isWord_of_checked {op : BinaryOperator ⊕ UnaryOperator} {n w : Int}
    (h : checked op n = .ok w) :
  IsWord w
  := by
  rw [checked] at h
  split at h
  · next hn =>
    cases h
    apply hn
  · cases h

/-- The remainder of a word is a word, for it is no farther from 0. -/
theorem isWord_tmod {a : Int} (ha : IsWord a) (b : Int) :
  IsWord (a.tmod b)
  := by
  have hle : (a.tmod b).natAbs ≤ a.natAbs := by
    rw [Int.natAbs_tmod]
    apply Nat.mod_le
  obtain ⟨hleast, hgreatest⟩ := ha
  rcases Int.le_total 0 a with hpos | hneg
  · have := Int.tmod_nonneg b hpos
    constructor
    · apply Int.le_trans _ this
      decide
    · omega
  · have := Int.tmod_nonneg b (Int.neg_nonneg_of_nonpos hneg)
    rw [Int.neg_tmod] at this
    constructor
    · omega
    · apply Int.le_trans (Int.nonpos_of_neg_nonneg this)
      decide

end Word

open Word

/-- An operator with two operands makes a word of words. -/
theorem BinaryOperator.isWord_apply {op : BinaryOperator} {a b w : Int} (ha : IsWord a)
    (h : op.apply a b = .ok w) :
  IsWord w
  := by
  cases op with
  | add => apply isWord_of_checked h
  | sub => apply isWord_of_checked h
  | mul => apply isWord_of_checked h
  | div =>
    simp only [apply] at h
    split at h
    · cases h
    · apply isWord_of_checked h
  | mod =>
    simp only [apply] at h
    split at h
    · cases h
    · split at h
      · cases h
      · cases h
        apply isWord_tmod ha
  | _ =>
    cases h
    apply isWord_ofBool

/-- An operator with one operand makes a word of a word. -/
theorem UnaryOperator.isWord_apply {op : UnaryOperator} {a w : Int}
    (h : op.apply a = .ok w) :
  IsWord w
  := by
  cases op with
  | neg => apply isWord_of_checked h
  | not =>
    cases h
    apply isWord_ofBool

end StackMachine
