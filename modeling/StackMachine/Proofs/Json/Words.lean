import StackMachine.Proofs.Json.Programs
import StackMachine.Proofs.Number.Conversion
import StackMachine.Proofs.Trace.Entries

/-!
# Words in JSON and back

An integer is written as a number exactly if it does not change when it is rounded to a number and
the number is safe, and that is so up to `2 ^ 53 - 1` on both sides of zero.  Every other integer is
written as the string of its digits.  So an integer of any size is read back from a program in JSON,
and lists of integers are told apart by how they are written.
-/

namespace StackMachine

/-! ### Words -/

namespace Word

/-- An integer is written as the number that it is rounded to if this is safe, and otherwise as the
string of its digits. -/
theorem toJson_eq_rounding (w : Int) :
  toJson w = if (Number.rounding w).toSafeInt?.isSome then .number (Number.rounding w)
    else .string (Text.ofInt w)
  := by
  rw [toJson, Number.toSafeInt?_rounding]
  by_cases h : w.natAbs ≤ Number.maxSafe
  · rw [if_pos h, if_pos h, Number.rounding_of_le h]
    rfl
  · rw [if_neg h, if_neg h]
    rfl

/-- What an integer is written as is a constant of programs in JSON. -/
theorem isConstant_toJson (w : Int) :
  ProgramFile.IsConstant (toJson w) w
  := by
  rw [toJson]
  split
  · next h => exact .number rfl h
  · exact .text (Text.toInt?_eq_some_iff.mp (Text.toInt?_ofInt w))

theorem toJson_injective :
  Function.Injective toJson
  := by
  intro v w h
  have hv := isConstant_toJson v
  rw [h] at hv
  exact hv.unique (isConstant_toJson w)

theorem listToJson_injective :
  Function.Injective listToJson
  := by
  intro vs ws h
  injection h with h
  exact toJson_injective.list_map h

end Word

/-! ### Programs -/

/-- The program with one constant, in JSON. -/
def Word.program (w : Int) : Json :=
  .array [.object [("op", .string "loadc"), ("value", Word.toJson w)]]

theorem Word.isExact_program (w : Int) :
  (program w).IsExact
  := by
  apply Json.IsExact.array
  intro v hv
  rw [List.mem_singleton.mp hv]
  apply Json.isExact_object rfl
  simp [Json.isExact_word, Json.IsExact.string]

/-- A text that is JSON for the program with one constant is read as that program. -/
theorem Word.ofJsonText_program {source : Text} {w : Int}
    (h : Json.parse? source = some (program w)) :
  Program.ofJsonText source = .ok [.loadc w]
  := by
  apply Program.ofJsonText_eq_ok_iff.mpr
  refine ⟨_, h, List.Forall₂.cons ?_ List.Forall₂.nil⟩
  exact .constant ⟨_, rfl, fun _ => rfl⟩ (isConstant_toJson w)

/-- An integer of any size is faithfully written in JSON.  What it is written as is decided by
rounding it, and it is a number exactly up to `2 ^ 53 - 1`, namely the integer itself, and otherwise
the string of its digits.  The program with it as a constant is read back, and lists of integers are
told apart by the values and by the texts that they are written as. -/
theorem Word.json_faithful :
  (∀ w,
    (toJson w = if (Number.rounding w).toSafeInt?.isSome then .number (Number.rounding w)
      else .string (Text.ofInt w))
    ∧ ((∃ x, toJson w = .number x) ↔ |w| ≤ 2 ^ 53 - 1)
    ∧ (toJson w = if |w| ≤ 2 ^ 53 - 1 then .number (.int w) else .string (Text.ofInt w))
    ∧ Program.ofJsonText (program w).compact = .ok [.loadc w])
  ∧ Function.Injective listToJson
  ∧ Function.Injective fun ws => (listToJson ws).compact
  := by
  refine ⟨?_, listToJson_injective, ?_⟩
  · intro w
    have hsafe : |w| ≤ 2 ^ 53 - 1 ↔ w.natAbs ≤ Number.maxSafe := by
      rw [Int.abs_eq_natAbs, Number.maxSafe]
      omega
    simp only [hsafe]
    refine ⟨toJson_eq_rounding w, ?number, rfl, ?program⟩
    case number =>
      rw [toJson]
      split
      · next h => exact ⟨fun _ => h, fun _ => ⟨_, rfl⟩⟩
      · next h =>
        constructor
        · rintro ⟨_, ⟨⟩⟩
        · exact fun h' => absurd h' h
    case program => apply ofJsonText_program (isExact_program w).parse?
  · intro vs ws h
    have hparse := congrArg Json.parse? h
    simp only [(Json.isExact_words _).parse?, Option.some.injEq] at hparse
    exact listToJson_injective hparse

end StackMachine
