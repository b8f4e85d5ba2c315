import StackMachine.Datum
import StackMachine.Machine.Refusal

/-!
# Limits

How far a machine may run and grow: a number of steps, if there is one, and the sizes of
the memory and the heap.  None of them changes what a program computes.  Limits are read
from options, which are untyped; an option that is absent takes its default.
-/

namespace StackMachine

/-- The limits of a machine. -/
structure Limits where
  maxSteps : Option Nat
  memory : Nat
  heap : Nat
deriving DecidableEq, Repr

namespace Limits

/-- The size of the memory and of the heap where no other is given, `2 ^ 20` words. -/
def defaultSize : Nat := 0x100000

/-- The greatest length of a list, and so of the memory and of the heap, `2 ^ 32 - 1` words. -/
def greatestSize : Nat := 0xFFFFFFFF

end Limits

/-- The options from which limits are read. -/
structure LimitOptions where
  maxSteps : Datum := .absent
  memoryLimit : Datum := .absent
  heapLimit : Datum := .absent
deriving Repr

namespace Limits

/-- A limit on steps: a positive integer up to `Number.maxSafe`, or absent. -/
def steps? : Datum → Option (Option Nat)
  | .absent => some none
  | .number x =>
    match x.toSafeInt? with
    | some n => if 0 < n then some (some n.toNat) else none
    | none => none
  | _ => none

/-- A limit on a size: an integer from 0 to `Number.maxSafe` or infinity, brought down to
`greatestSize`. -/
def size? : Datum → Option Nat
  | .absent => some defaultSize
  | .number (.infinity false) => some greatestSize
  | .number x =>
    match x.toSafeInt? with
    | some n => if 0 ≤ n then some (min n.toNat greatestSize) else none
    | none => none
  | _ => none

/-- What an option sets, or else its refusal, which is to show the option. -/
def orRefuse {α : Type} (limit : Option α) (error : Text → LimitError) (given : Datum) :
    Except ConstructionError α :=
  match limit, given.toText? with
  | some limit, _ => .ok limit
  | none, some shown => .error (.limit (error shown))
  | none, none => .error .noText

/-- The limits that options set. -/
def ofOptions (options : LimitOptions) : Except ConstructionError Limits := do
  let maxSteps ← orRefuse (steps? options.maxSteps) .maxSteps options.maxSteps
  let memory ← orRefuse (size? options.memoryLimit) .memoryLimit options.memoryLimit
  let heap ← orRefuse (size? options.heapLimit) .heapLimit options.heapLimit
  return { maxSteps, memory, heap }

end Limits

end StackMachine
