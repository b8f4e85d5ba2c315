import StackMachine.Text

/-!
# Alphabetical order

The order in which names are listed: marks come before digits and digits before letters;
letters are compared without regard to case, and among names that differ in nothing else
small letters come before capitals.
-/

namespace StackMachine

namespace CodeUnit

/-- The marks in the order in which names that differ by them are listed. -/
def marks : Text := "_-,;:!?.'\"()[]\x7b\x7d@*/\\&#%`^+<=>|~$"

/-- The rank of a unit, the same for a small letter and its capital.  Blanks come before
the marks, and units beyond ASCII after the letters. -/
def rank (u : CodeUnit) : Nat :=
  if isLetter u then 0x600 + (toLower u).toNat
  else if isDigit u then 0x500 + u.toNat
  else if u ∈ marks then 0x400 + marks.idxOf u
  else if u < 0x80 then u.toNat
  else 0x1000 + u.toNat

/-- The rank of a unit among units of the same letter. -/
def caseRank (u : CodeUnit) : Nat := if toLower u = u then 0 else 1

end CodeUnit

namespace Text

/-- Whether a name comes before another. -/
def alphabetical (s t : Text) : Bool :=
  let a := s.map CodeUnit.rank
  let b := t.map CodeUnit.rank
  if a = b then decide (s.map CodeUnit.caseRank < t.map CodeUnit.caseRank) else decide (a < b)

end Text

end StackMachine
