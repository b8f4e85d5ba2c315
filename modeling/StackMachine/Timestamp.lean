import StackMachine.Text

/-!
# Timestamps

A timestamp is a number of milliseconds since the beginning of 1970, written as a date and
a time of day in ISO 8601.  `Timestamp.toText` writes all three parts of the second, and
`Timestamp.parse?` reads a date alone, or a date and a time with or without seconds, a
fraction and a zone.  Other spellings of a date, which each implementation reads in its own
way, denote no timestamp here; a trace that a machine writes has none of them.
-/

namespace StackMachine

namespace Timestamp

/-- The milliseconds of a day. -/
def dayLength : Int := 86400000

/-! ### The calendar

Years are counted from March, so that a leap day is the last day of its year, and 400
years are 146097 days. -/

/-- The days from 1970-01-01 to a day of a month; days past the end of the month run into
the next. -/
def dayNumber (year : Int) (month day : Nat) : Int :=
  let y := if month ≤ 2 then year - 1 else year
  let era := y.fdiv 400
  let yearOfEra := y - era * 400
  let dayOfYear : Int := (153 * ((month + 9) % 12 : Nat) + 2) / 5 + day - 1
  era * 146097 + yearOfEra * 365 + yearOfEra / 4 - yearOfEra / 100 + dayOfYear - 719468

/-- The year, month and day that lie some days after 1970-01-01. -/
def civil (days : Int) : Int × Nat × Nat :=
  let z := days + 719468
  let era := z.fdiv 146097
  let dayOfEra := z - era * 146097
  let yearOfEra :=
    (dayOfEra - dayOfEra / 1460 + dayOfEra / 36524 - dayOfEra / 146096) / 365
  let dayOfYear := dayOfEra - (365 * yearOfEra + yearOfEra / 4 - yearOfEra / 100)
  let shifted := (5 * dayOfYear + 2) / 153
  let day := dayOfYear - (153 * shifted + 2) / 5 + 1
  let month := if shifted < 10 then shifted + 3 else shifted - 9
  let year := yearOfEra + era * 400 + (if month ≤ 2 then 1 else 0)
  (year, month.toNat, day.toNat)

/-! ### Writing -/

/-- A number with zeros in front up to a width. -/
def padded (width n : Nat) : Text :=
  let digits := Text.ofNat n
  List.replicate (width - digits.length) (CodeUnit.ofChar '0') ++ digits

/-- A year: four digits, or a sign and six digits outside 0 to 9999. -/
def yearText (year : Int) : Text :=
  if 0 ≤ year ∧ year ≤ 9999 then padded 4 year.toNat
  else CodeUnit.ofChar (if year < 0 then '-' else '+') :: padded 6 year.natAbs

/-- A timestamp as `YYYY-MM-DDThh:mm:ss.sssZ`. -/
def toText (t : Int) : Text :=
  let (year, month, day) := civil (t.fdiv dayLength)
  let ms := (t.fmod dayLength).toNat
  Text.concat [yearText year, "-", padded 2 month, "-", padded 2 day, "T",
    padded 2 (ms / 3600000), ":", padded 2 (ms / 60000 % 60), ":", padded 2 (ms / 1000 % 60), ".",
    padded 3 (ms % 1000), "Z"]

/-! ### Reading -/

/-- A number of exactly so many digits at the head of a text, and the rest. -/
def fixed? (width : Nat) (s : Text) : Option (Nat × Text) :=
  let digits := s.take width
  if digits.length = width ∧ digits.all CodeUnit.isDigit then
    some (Text.digitsValue 10 digits, s.drop width)
  else none

/-- The rest of a text after a unit at its head. -/
def after? (c : Char) : Text → Option Text
  | [] => none
  | u :: r => if u = CodeUnit.ofChar c then some r else none

/-- The years at the head of a text, and the rest; the year 0 has no sign. -/
def year? (s : Text) : Option (Int × Text) :=
  match after? '+' s, after? '-' s with
  | some r, _ => (fixed? 6 r).map fun p => ((p.1 : Int), p.2)
  | _, some r =>
    match fixed? 6 r with
    | some (n, rest) => if n = 0 then none else some (-(n : Int), rest)
    | none => none
  | none, none => (fixed? 4 s).map fun p => ((p.1 : Int), p.2)

/-- A part of two digits after a mark, or a default if the mark does not come. -/
def part? (mark : Char) (missing : Nat) (s : Text) : Option (Nat × Text) :=
  match after? mark s with
  | some r => fixed? 2 r
  | none => some (missing, s)

/-- The day that a text begins with, and the rest. -/
def date? (s : Text) : Option (Int × Text) := do
  let (year, s₁) ← year? s
  let (month, s₂) ← part? '-' 1 s₁
  let (day, s₃) ← if (after? '-' s₁).isSome then part? '-' 1 s₂ else some (1, s₂)
  if 1 ≤ month ∧ month ≤ 12 ∧ 1 ≤ day ∧ day ≤ 31 then some (dayNumber year month day, s₃)
  else none

/-- How many digits of a fraction of a second count. -/
def significantDigits : Nat := 9

/-- The digits of a fraction of a second as a number.  At most nine digits count, and they
begin with the first that is not zero. -/
def significand (digits : Text) : Nat :=
  Text.digitsValue 10 ((digits.dropWhile (· = CodeUnit.ofChar '0')).take significantDigits)

/-- The milliseconds of a fraction of a second: its significand over the power of ten of its
length, where a length of more than nine digits counts as nine. -/
def milliseconds (digits : Text) : Nat :=
  significand digits * 1000 / Nat.pow 10 (min digits.length significantDigits)

/-- The digits of a fraction of a second at the head of a text, none if there is no point,
and the rest.  After a point there is at least one digit. -/
def fraction? (s : Text) : Option (Text × Text) :=
  match after? '.' s with
  | none => some ([], s)
  | some r =>
    let digits := r.takeWhile CodeUnit.isDigit
    if digits = [] then none else some (digits, r.drop digits.length)

/-- The milliseconds of the day that a time begins a text with, and the rest.  The hour 24
is the end of a day and has nothing but zeros after it. -/
def time? (s : Text) : Option (Nat × Text) := do
  let (hour, s₁) ← fixed? 2 s
  let s₂ ← after? ':' s₁
  let (minute, s₃) ← fixed? 2 s₂
  let (second, s₄) ← part? ':' 0 s₃
  let (digits, s₅) ← if (after? ':' s₃).isSome then fraction? s₄ else some ([], s₄)
  let endOfDay := hour = 24 ∧ minute = 0 ∧ second = 0 ∧ significand digits = 0
  if minute < 60 ∧ second < 60 ∧ (hour < 24 ∨ endOfDay) then
    some (((hour * 60 + minute) * 60 + second) * 1000 + milliseconds digits, s₅)
  else none

/-- The milliseconds by which a zone is ahead; the zone is all that is left of the text.
Without a zone the time is that of `Z`, which may be small. -/
def zone? (s : Text) : Option Int :=
  let offset (sign : Int) (r : Text) : Option Int := do
    let (hour, r₁) ← fixed? 2 r
    let r₂ := (after? ':' r₁).getD r₁
    let (minute, r₃) ← fixed? 2 r₂
    if r₃ = [] ∧ hour < 24 ∧ minute < 60 then
      some (sign * ((hour * 60 + minute) * 60000 : Nat))
    else none
  if s = [] ∨ s = Text.ofString "Z" ∨ s = Text.ofString "z" then some 0
  else match after? '+' s, after? '-' s with
    | some r, _ => offset 1 r
    | _, some r => offset (-1) r
    | none, none => none

/-- The greatest distance of a timestamp from 1970, `10 ^ 8` days. -/
def greatest : Nat := 8640000000000000

/-- The timestamp that a text denotes.  The mark `T` before the time may be small. -/
def parse? (s : Text) : Option Int := do
  let (day, s₁) ← date? s
  let t ← if s₁ = [] then some (day * dayLength)
    else do
      let s₂ ← after? 'T' s₁ <|> after? 't' s₁
      let (ms, s₃) ← time? s₂
      let ahead ← zone? s₃
      some (day * dayLength + ms - ahead)
  if t.natAbs ≤ greatest then some t else none

end Timestamp

end StackMachine
