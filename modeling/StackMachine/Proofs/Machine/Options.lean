import StackMachine.Machine.Limits
import StackMachine.Proofs.Number.Integers

/-!
# Options

Which limits options set, and what they allow: a limit is never greater than the number that
is given, and the limit of a size never greater than the greatest size.
-/

namespace StackMachine

/-- A size that an option allows: no greater than the greatest size, than the default if the
option is absent, and than the integer that is given. -/
structure Datum.AllowsSize (option : Datum) (size : Nat) : Prop where
  greatest : size ≤ Limits.greatestSize
  default : option = .absent → size ≤ Limits.defaultSize
  given : ∀ x n, option = .number x → x.toInt? = some n → (size : Int) ≤ n

/-- A number of steps that an option allows: no greater than the integer that is given. -/
def Datum.AllowsSteps (option : Datum) (steps : Nat) : Prop :=
  ∀ x n, option = .number x → x.toInt? = some n → (steps : Int) ≤ n

namespace Limits

/-- What is within the limit that an option sets is allowed by the option. -/
theorem allowsSize_of_size? {option : Datum} {limit size : Nat}
    (h : size? option = some limit) (hsize : size ≤ limit) :
  option.AllowsSize size
  := by
  rw [size?.eq_def] at h
  split at h
  · cases h
    constructor
    · apply Nat.le_trans hsize
      decide
    · intro _
      apply hsize
    · rintro x n ⟨⟩
  · cases h
    constructor
    · apply hsize
    · rintro ⟨⟩
    · rintro x n ⟨⟩ ⟨⟩
  · next x _ =>
    split at h
    · next n hx =>
      split at h
      · next hn =>
        cases h
        constructor
        · apply Nat.le_trans hsize (Nat.min_le_right _ _)
        · rintro ⟨⟩
        · rintro _ k ⟨⟩ hk
          rw [(Number.toSafeInt?_eq_some_iff.mp hx).1] at hk
          cases hk
          have := Nat.le_trans hsize (Nat.min_le_left _ _)
          omega
      · cases h
    · cases h
  · cases h

/-- Steps within the limit that an option sets are allowed by the option. -/
theorem allowsSteps_of_steps? {option : Datum} {limit : Option Nat} {steps : Nat}
    (h : steps? option = some limit) (hsteps : ∀ n, limit = some n → steps ≤ n) :
  option.AllowsSteps steps
  := by
  rintro x k rfl hk
  rw [steps?] at h
  split at h
  · next n hx =>
    split at h
    · cases h
      rw [(Number.toSafeInt?_eq_some_iff.mp hx).1] at hk
      cases hk
      have := hsteps _ rfl
      omega
    · cases h
  · cases h

/-- What an option sets does not depend on how it would be refused. -/
theorem orRefuse_eq_ok {α : Type} {limit : Option α} {error : Text → LimitError} {given : Datum}
    {a : α} (h : orRefuse limit error given = .ok a) :
  limit = some a
  := by
  rw [orRefuse.eq_def] at h
  split at h
  · injection h with h
    rw [h]
  · cases h
  · cases h

/-- The limits that options set, one by one. -/
theorem ofOptions_eq_ok {options : LimitOptions} {limits : Limits}
    (h : ofOptions options = .ok limits) :
  steps? options.maxSteps = some limits.maxSteps
    ∧ size? options.memoryLimit = some limits.memory
    ∧ size? options.heapLimit = some limits.heap
  := by
  rw [ofOptions] at h
  cases hsteps : orRefuse (steps? options.maxSteps) .maxSteps options.maxSteps with
  | error e =>
    rw [hsteps] at h
    cases h
  | ok maxSteps =>
    cases hmemory : orRefuse (size? options.memoryLimit) .memoryLimit options.memoryLimit with
    | error e =>
      rw [hsteps, hmemory] at h
      cases h
    | ok memory =>
      cases hheap : orRefuse (size? options.heapLimit) .heapLimit options.heapLimit with
      | error e =>
        rw [hsteps, hmemory, hheap] at h
        cases h
      | ok heap =>
        rw [hsteps, hmemory, hheap] at h
        cases h
        exact ⟨orRefuse_eq_ok hsteps, orRefuse_eq_ok hmemory, orRefuse_eq_ok hheap⟩

/-- An option that has a text is refused with it. -/
theorem orRefuse_eq_error {α : Type} {limit : Option α} {error : Text → LimitError} {given : Datum}
    {e : ConstructionError} (h : orRefuse limit error given = .error e)
    (htext : given.toText? ≠ none) :
  ∃ e', e = .limit e'
  := by
  rw [orRefuse.eq_def] at h
  split at h
  · cases h
  · cases h
    exact ⟨_, rfl⟩
  · contradiction

/-- Options that have a text are refused because one of them is no limit. -/
theorem ofOptions_eq_error {options : LimitOptions} {e : ConstructionError}
    (h : ofOptions options = .error e) (hsteps : options.maxSteps.toText? ≠ none)
    (hmemory : options.memoryLimit.toText? ≠ none) (hheap : options.heapLimit.toText? ≠ none) :
  ∃ e', e = .limit e'
  := by
  rw [ofOptions] at h
  cases h₁ : orRefuse (steps? options.maxSteps) .maxSteps options.maxSteps with
  | error e' =>
    rw [h₁] at h
    cases h
    apply orRefuse_eq_error h₁ hsteps
  | ok maxSteps =>
    cases h₂ : orRefuse (size? options.memoryLimit) .memoryLimit options.memoryLimit with
    | error e' =>
      rw [h₁, h₂] at h
      cases h
      apply orRefuse_eq_error h₂ hmemory
    | ok memory =>
      cases h₃ : orRefuse (size? options.heapLimit) .heapLimit options.heapLimit with
      | error e' =>
        rw [h₁, h₂, h₃] at h
        cases h
        apply orRefuse_eq_error h₃ hheap
      | ok heap =>
        rw [h₁, h₂, h₃] at h
        cases h

end Limits

end StackMachine
