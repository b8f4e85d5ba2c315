import StackMachine.Instruction

/-!
# Listings

The one way in which a program is written as assembly: an instruction a line, indented by
two blanks, with a line `L<index>:` before each instruction that some jump leads to.
Targets past the end share one line of labels at the end, in ascending order.
-/

namespace StackMachine

namespace Listing

/-- The line of a label. -/
def labelLine (label : Text) : Text := label ++ [CodeUnit.ofChar ':']

/-- The lines of operations, with the line of its label before each that has one. -/
def bodyLines (label : Nat → Text) (isLabelled : Nat → Bool) (operations : List Text) :
    List Text :=
  operations.zipIdx.flatMap fun (operation, n) =>
    let line := Text.ofString "  " ++ operation
    if isLabelled n then [labelLine (label n), line] else [line]

/-- Lines, and the labels at the end on one line more, as one text. -/
def ofLines (lines labels : List Text) : Text :=
  let last := if labels = [] then [] else [Text.join [0x20] (labels.map labelLine)]
  Text.join [Text.lineFeed] (lines ++ last) ++ [Text.lineFeed]

end Listing

namespace Program

/-- The label of a target. -/
def label (target : Number) : Text := CodeUnit.ofChar 'L' :: target.toText

/-- The operation of an instruction, in which a jump names the label of its target. -/
def operation (i : Instruction Number) : Text :=
  match i.target? with
  | some target => i.opcode.mnemonic ++ 0x20 :: label target
  | none => i.toText

/-- The targets of the jumps of a program; negative zero is the target 0. -/
def targets (program : Program) : List Number :=
  program.filterMap fun i => i.target?.map Number.unsigned

/-- The targets at or past the end of a program, each once, in ascending order. -/
def trailing (program : Program) : List Number :=
  ((targets program).eraseDups.filter fun t => (Number.ofNat program.length).le t).mergeSort
    Number.le

/-- The lines of a program but for the labels past its end. -/
def bodyLines (program : Program) : List Text :=
  let targets := targets program
  Listing.bodyLines (fun n => label (Number.ofNat n)) (fun n => Number.ofNat n ∈ targets)
    (program.map operation)

/-- A program written as assembly. -/
def listing (program : Program) : Text :=
  Listing.ofLines (bodyLines program) ((trailing program).map label)

end Program

end StackMachine
