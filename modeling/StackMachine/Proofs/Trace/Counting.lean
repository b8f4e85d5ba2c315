import StackMachine.Proofs.Fields
import StackMachine.Proofs.Structure
import StackMachine.Trace.Summary

/-!
# Counting opcodes

A table in which opcodes have been counted by their names tells of each opcode how often it came.
-/

namespace StackMachine

namespace Trace

/-- A table tells how often each opcode is among some opcodes, and nothing of the others. -/
def Tallies (counts : Fields Count) (opcodes : List Opcode) : Prop :=
  ∀ o, counts.get? o.mnemonic
    = if opcodes.count o = 0 then none else some (.number (opcodes.count o))

/-- The name of an opcode is no built-in name, so that its count begins with 0. -/
theorem start_mnemonic (o : Opcode) :
  o.mnemonic ≠ Text.ofString "__proto__" ∧ Count.start o.mnemonic = .number 0
  := by
  cases o with
  | binary op => cases op <;> decide
  | unary op => cases op <;> decide
  | _ => decide

/-- The table after one more of an opcode. -/
theorem Tallies.count {counts : Fields Count} {opcodes : List Opcode} (h : Tallies counts opcodes)
    (o : Opcode) :
  Tallies (countOpcode counts o.mnemonic) (opcodes ++ [o])
  := by
  obtain ⟨hproto, hstart⟩ := start_mnemonic o
  intro o'
  rw [countOpcode, if_neg hproto, Fields.get?_insert, List.count_append, List.count_singleton]
  by_cases ho : o' = o
  · rw [if_pos (congrArg Opcode.mnemonic ho), ho, beq_self_eq_true, if_pos rfl,
      if_neg (Nat.succ_ne_zero _), h o, hstart]
    by_cases hzero : opcodes.count o = 0
    · rw [if_pos hzero, hzero]
      rfl
    · rw [if_neg hzero]
      rfl
  · rw [if_neg (Opcode.mnemonic_injective.ne ho), beq_eq_false_iff_ne.mpr (Ne.symm ho), h o']
    rfl

/-- The table after several opcodes. -/
theorem Tallies.foldl {counts : Fields Count} {before : List Opcode} (h : Tallies counts before)
    (opcodes : List Opcode) :
  Tallies ((opcodes.map Opcode.mnemonic).foldl countOpcode counts) (before ++ opcodes)
  := by
  induction opcodes generalizing counts before with
  | nil =>
    rw [List.append_nil]
    exact h
  | cons o opcodes ih =>
    rw [List.append_cons]
    apply ih (h.count o)

end Trace

end StackMachine
