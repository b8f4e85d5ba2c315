import StackMachine.Text

/-!
# UTF-8

`Utf8.decode` reads bytes as text and `Utf8.encode` writes text as bytes.  Decoding never
fails: the longest beginning of a sequence that some character could continue counts as
one error and becomes U+FFFD, and the byte that broke it is read afresh.  A byte order
mark is a character like any other.
-/

namespace StackMachine

namespace Utf8

/-- A sequence that has begun: the bits read so far, the bytes still owed, and the least
and greatest byte that may come next. -/
structure Pending where
  bits : Nat
  owed : Nat
  least : UInt8
  greatest : UInt8
deriving DecidableEq, Repr

/-- U+FFFD, which stands for what cannot be decoded. -/
def replacement : Text := [0xFFFD]

/-- A first byte: the text it yields at once, and the sequence it begins, if any. -/
def lead (b : UInt8) : Text × Option Pending :=
  if b < 0x80 then ([b.toUInt16], none)
  else if 0xC2 ≤ b && b ≤ 0xDF then ([], some ⟨b.toNat % 0x20, 1, 0x80, 0xBF⟩)
  else if b == 0xE0 then ([], some ⟨0, 2, 0xA0, 0xBF⟩)
  else if b == 0xED then ([], some ⟨0xD, 2, 0x80, 0x9F⟩)
  else if 0xE1 ≤ b && b ≤ 0xEF then ([], some ⟨b.toNat % 0x10, 2, 0x80, 0xBF⟩)
  else if b == 0xF0 then ([], some ⟨0, 3, 0x90, 0xBF⟩)
  else if 0xF1 ≤ b && b ≤ 0xF3 then ([], some ⟨b.toNat % 0x8, 3, 0x80, 0xBF⟩)
  else if b == 0xF4 then ([], some ⟨4, 3, 0x80, 0x8F⟩)
  else (replacement, none)

/-- The next byte of a text, with or without a sequence that has begun. -/
def step : Option Pending → UInt8 → Text × Option Pending
  | none, b => lead b
  | some p, b =>
    if p.least ≤ b && b ≤ p.greatest then
      let bits := p.bits * 0x40 + b.toNat % 0x40
      if p.owed ≤ 1 then (Text.ofCodePoint bits, none)
      else ([], some ⟨bits, p.owed - 1, 0x80, 0xBF⟩)
    else (replacement ++ (lead b).1, (lead b).2)

/-- The text of the bytes that follow a sequence that has begun. -/
def decodeFrom : Option Pending → List UInt8 → Text
  | none, [] => []
  | some _, [] => replacement
  | p, b :: r => (step p b).1 ++ decodeFrom (step p b).2 r

/-- The text of a file of bytes. -/
def decode (bytes : List UInt8) : Text := decodeFrom none bytes

/-- The bytes of a text, where a lone surrogate is written as U+FFFD. -/
def encode (t : Text) : List UInt8 := (Text.toChars t).flatMap String.utf8EncodeChar

end Utf8

end StackMachine
