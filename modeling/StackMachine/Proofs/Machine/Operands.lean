import StackMachine.Proofs.Machine.Untyped
import StackMachine.Proofs.Number.Conversion

/-!
# Tests of operands

An address, and the number of words to allocate, may be converted to a number before it is compared
with what the limit leaves.  No limit is above `Limits.greatestSize`, and so the numbers compare as
the integers do, by which the instructions are defined.
-/

namespace StackMachine

/-! ### Operands and limits -/

theorem Limits.greatestSize_le_maxSafe :
  greatestSize ≤ Number.maxSafe
  := by decide

section

variable {limit : Nat} (hlimit : limit ≤ Limits.greatestSize)

include hlimit

/-- A word is no address exactly if the number nearest to it is none. -/
theorem outside_iff_rounding (w : Int) :
  (w < 0 ∨ (limit : Int) ≤ w)
    ↔ w < 0 ∨ (Number.ofNat limit).le (Number.rounding w) = true
  := by
  by_cases hneg : w < 0
  · simp only [hneg, true_or]
  · have hsafe : (limit : Int).natAbs ≤ Number.maxSafe :=
      Nat.le_trans hlimit Limits.greatestSize_le_maxSafe
    rw [Number.ofNat, Number.le_rounding_iff hsafe (Int.not_lt.mp hneg)]

/-- There are too many words exactly if the number nearest to theirs is too great. -/
theorem exceeds_iff_rounding {base : Nat} (hbase : base ≤ Limits.greatestSize) (words : Int) :
  (words < 0 ∨ (limit : Int) - base < words)
    ↔ words < 0 ∨ (Number.rounding words).le (.int (limit - base)) = false
  := by
  by_cases hneg : words < 0
  · simp only [hneg, true_or]
  · have hsafe : ((limit : Int) - base).natAbs ≤ Number.maxSafe := by
      have := Limits.greatestSize_le_maxSafe
      omega
    rw [← Bool.not_eq_true, Number.rounding_le_iff hsafe (Int.not_lt.mp hneg), Int.not_le]

end

/-! ### Instructions -/

namespace State

variable {limits : Limits} {s : State}

/-- Whether a word is an address can be told from the number nearest to it. -/
theorem withAddress_eq_rounding (hlimit : limits.memory ≤ Limits.greatestSize) (w : Int)
    (next : Nat → Step) :
  s.withAddress limits w next
    = if w < 0 ∨ (Number.ofNat limits.memory).le (Number.rounding w) = true
      then .faulted (.address w limits.memory) s else next w.toNat
  := by
  simp only [withAddress, outside_iff_rounding hlimit]

/-- Whether words can be allocated can be told from the number nearest to theirs. -/
theorem execute_new_eq_rounding (hlimit : limits.heap ≤ Limits.greatestSize)
    (hheap : s.heap.size ≤ Limits.greatestSize) :
  s.execute limits .new = s.withPop fun words t =>
    if words < 0 ∨ (Number.rounding words).le (.int (limits.heap - s.heap.size)) = false then
      .faulted (.allocation words s.heap.size limits.heap) t
    else .running (push s.heap.size { t with heap := growTo s.heap (s.heap.size + words.toNat) })
  := by
  rw [execute, withPop, withPop]
  cases s.stack with
  | nil => rfl
  | cons words stack => simp only [exceeds_iff_rounding hlimit hheap]

end State

namespace Untyped.State

variable {limits : Limits} {s : State}

theorem withAddress_eq_rounding (hlimit : limits.memory ≤ Limits.greatestSize) (d : Datum)
    (next : Nat → Step) :
  s.withAddress limits d next = withInteger d fun w =>
    if w < 0 ∨ (Number.ofNat limits.memory).le (Number.rounding w) = true
    then .faulted (.address w limits.memory) s else next w.toNat
  := by
  simp only [withAddress, outside_iff_rounding hlimit]

theorem perform_new_eq_rounding (hlimit : limits.heap ≤ Limits.greatestSize)
    (hheap : s.heap.size ≤ Limits.greatestSize) (d : Datum) :
  s.perform limits d .new = s.withPop fun w t =>
    withInteger w fun words =>
      if words < 0 ∨ (Number.rounding words).le (.int (limits.heap - s.heap.size)) = false then
        .faulted (.allocation words s.heap.size limits.heap) t
      else
        withRegion s.heap (s.heap.size + words.toNat) fun heap =>
          push (.integer s.heap.size) { t with heap }
  := by
  simp only [perform, withPop, exceeds_iff_rounding hlimit hheap]

end Untyped.State

end StackMachine
