import StackMachine.Assembly.Listing
import StackMachine.Datum
import StackMachine.Number.Literal

/-!
# Listings of unchecked programs

A program can be listed before it is checked, so that what is wrong with it can be seen.
Whatever stands for an opcode, a constant or a target is written as a message shows it, so
that it needs a text, and the labels past the end are those of the targets that, taken as
numbers, are so great.  Of an instruction that is right the listing is that of
`Program.listing`.
-/

namespace StackMachine

namespace Datum

/-- The number as which a value with a text counts where a number is wanted. -/
def toNumber : Datum → Number
  | absent => .nan
  | null => .int 0
  | bool b => .int (if b then 1 else 0)
  | number x => x
  | integer n => .int n
  | string t => .ofText t
  | list items => ((itemsText? items).map Number.ofText).getD .nan
  | record _ => .nan

/-- Whether two values are the same target.  Lists and records are different each time. -/
def isSame : Datum → Datum → Bool
  | absent, absent => true
  | null, null => true
  | bool a, bool b => a = b
  | number x, number y => x.unsigned = y.unsigned
  | integer m, integer n => m = n
  | string s, string t => s = t
  | _, _ => false

end Datum

namespace Unchecked

/-- Why a program cannot be listed. -/
inductive ListingFailure where
  /-- An element has no fields to look at. -/
  | noFields
  /-- A value that is to be written has no text. -/
  | noText
  /-- An integer and another target past the end are to be put in order. -/
  | incomparable
deriving DecidableEq, Repr

/-- The target of an instruction that is a jump by its opcode. -/
def target? (d : Datum) : Option Datum :=
  match d.field "op" with
  | .string op =>
    if op = Text.ofString "jump" ∨ op = Text.ofString "jumpz" then some (d.field "target")
    else none
  | _ => none

/-- An instruction on one line, with the text by which a jump names its target. -/
def lineWith (name : Datum → Option Text) (d : Datum) : Option Text :=
  let op := d.field "op"
  match target? d, op with
  | some target, _ => do return (← op.toText?) ++ 0x20 :: (← name target)
  | none, .string t =>
    if t = Text.ofString "loadc" then
      (d.field "value").toText?.map fun shown => Text.concat ["loadc ", shown]
    else some t
  | none, _ => op.toText?

/-- An instruction on one line. -/
def instructionText (d : Datum) : Option Text := lineWith Datum.toText? d

/-- The label of a target. -/
def label (target : Datum) : Option Text := target.toText?.map (CodeUnit.ofChar 'L' :: ·)

/-- The targets of the jumps of a program, each once. -/
def targets (data : List Datum) : List Datum := (data.filterMap target?).eraseDupsBy Datum.isSame

/-- The targets at or past the end of a program, in ascending order. -/
def trailing (data : List Datum) : List Datum :=
  ((targets data).filter fun t => (Number.ofNat data.length).le t.toNumber).mergeSort
    fun s t => s.toNumber.le t.toNumber

/-- Whether targets can be put in order: at most one is left, or none is an integer. -/
def areComparable (targets : List Datum) : Bool :=
  targets.length ≤ 1 || targets.all fun t => match t with
    | .integer _ => false
    | _ => true

/-- A program written as assembly. -/
def listing (data : List Datum) : Except ListingFailure Text :=
  let targets := targets data
  let past := trailing data
  if ¬ data.all Datum.hasFields then .error .noFields
  else match data.mapM (lineWith label), past.mapM label with
    | some shown, some labels =>
      if ¬ areComparable past then .error .incomparable
      else
        let isTarget (n : Nat) : Bool := targets.any fun t => t.isSame (.number (Number.ofNat n))
        let lines := Listing.bodyLines (fun n => CodeUnit.ofChar 'L' :: Text.ofNat n) isTarget shown
        .ok (Listing.ofLines lines labels)
    | _, _ => .error .noText

end Unchecked

end StackMachine
