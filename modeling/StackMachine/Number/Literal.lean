import StackMachine.Number.Rounding
import StackMachine.Text

/-!
# Numerals

The decimal numerals: an integer part, a fraction after a point, and a power of ten after
`e`.  `Number.json?` reads a numeral at the head of a text by the strict rules of JSON, and
`Number.ofText` reads a whole text by free rules, where either part may be missing, blanks
may stand around the numeral, and an integer may be given in base 2, 8 or 16.
-/

namespace StackMachine

namespace Number

/-- The digits at the head of a text, and the rest. -/
def digits (s : Text) : Text × Text :=
  (s.takeWhile CodeUnit.isDigit, s.dropWhile CodeUnit.isDigit)

/-- A sign at the head of a text, a minus giving `true`, and the rest. -/
def sign : Text → Bool × Text
  | [] => (false, [])
  | u :: r =>
    if u = CodeUnit.ofChar '-' then (true, r)
    else if u = CodeUnit.ofChar '+' then (false, r)
    else (false, u :: r)

/-- The power of ten at the head of a text, 0 if there is none, and the rest.  An `e`
without digits is refused. -/
def exponent? : Text → Option (Int × Text)
  | [] => some (0, [])
  | u :: r =>
    if u.toLower = CodeUnit.ofChar 'e' then
      let (negative, s) := sign r
      match digits s with
      | ([], _) => none
      | (ds, rest) =>
        let n : Int := Text.digitsValue 10 ds
        some (if negative then -n else n, rest)
    else some (0, u :: r)

/-- The digits after a point at the head of a text, or nothing without a point, and the
rest. -/
def fraction? : Text → Option (Text × Text)
  | [] => none
  | u :: r => if u = CodeUnit.ofChar '.' then some (digits r) else none

/-- The number of an integer part, a fraction and a power of ten. -/
def ofParts (negative : Bool) (whole part : Text) (exponent : Int) : Number :=
  ofDecimal negative (Text.digitsValue 10 (whole ++ part)) (exponent - part.length)

/-- The integer part of a JSON numeral at the head of a text: digits without a leading
zero. -/
def jsonWhole? (s : Text) : Option (Text × Text) :=
  match digits s with
  | ([], _) => none
  | (u :: ds, rest) =>
    if u = CodeUnit.ofChar '0' ∧ ds ≠ [] then none else some (u :: ds, rest)

/-- The fraction of a JSON numeral at the head of a text, which has digits if it has a
point. -/
def jsonFraction? (s : Text) : Option (Text × Text) :=
  match fraction? s with
  | none => some ([], s)
  | some ([], _) => none
  | some (ds, rest) => some (ds, rest)

/-- A JSON numeral at the head of a text, without its sign. -/
def jsonUnsigned? (negative : Bool) (s : Text) : Option (Number × Text) := do
  let (whole, s₁) ← jsonWhole? s
  let (part, s₂) ← jsonFraction? s₁
  let (exponent, rest) ← exponent? s₂
  some (ofParts negative whole part exponent, rest)

/-- A JSON numeral at the head of a text, and the rest. -/
def json? : Text → Option (Number × Text)
  | [] => none
  | u :: r =>
    if u = CodeUnit.ofChar '-' then jsonUnsigned? true r else jsonUnsigned? false (u :: r)

/-! ### A numeral leaves a shorter rest -/

theorem digits_length (s : Text) : (digits s).2.length ≤ s.length := by
  exact (List.dropWhile_suffix _).length_le

theorem sign_length (s : Text) : (sign s).2.length ≤ s.length := by
  unfold sign
  split
  · simp
  · split
    · simp
    · split <;> simp

theorem exponent?_length {s rest : Text} {e : Int} (h : exponent? s = some (e, rest)) :
  rest.length ≤ s.length
  := by
  unfold exponent? at h
  split at h
  · simp_all
  · next u r =>
    split at h
    · simp only at h
      split at h
      · simp at h
      · next hd =>
        have h₁ := digits_length (sign r).2
        have h₂ := sign_length r
        rw [hd] at h₁
        simp only [Option.some.injEq, Prod.mk.injEq] at h
        rw [← h.2, List.length_cons]
        simp only at h₁
        omega
    · simp only [Option.some.injEq, Prod.mk.injEq] at h
      simp [← h.2]

theorem jsonWhole?_length {s ds rest : Text} (h : jsonWhole? s = some (ds, rest)) :
  rest.length < s.length
  := by
  unfold jsonWhole? digits at h
  have hs := congrArg List.length (List.takeWhile_append_dropWhile (p := CodeUnit.isDigit) (l := s))
  rw [List.length_append] at hs
  split at h
  · simp at h
  · next hd =>
    simp only [Prod.mk.injEq] at hd
    rw [hd.1, hd.2] at hs
    split at h
    · simp at h
    · simp only [Option.some.injEq, Prod.mk.injEq] at h
      rw [← h.2, ← hs]
      simp

theorem jsonFraction?_length {s ds rest : Text} (h : jsonFraction? s = some (ds, rest)) :
  rest.length ≤ s.length
  := by
  unfold jsonFraction? fraction? at h
  cases s with
  | nil => simp_all
  | cons u r =>
    have hd := digits_length r
    simp only at h
    split at h
    · simp only [Option.some.injEq, Prod.mk.injEq] at h
      simp [← h.2]
    · simp at h
    · next he =>
      split at he
      · simp only [Option.some.injEq, Prod.mk.injEq] at h he
        rw [he] at hd
        rw [← h.2, List.length_cons]
        simp only at hd
        omega
      · simp at he

theorem jsonUnsigned?_length {negative : Bool} {s rest : Text} {x : Number}
    (h : jsonUnsigned? negative s = some (x, rest)) :
  rest.length < s.length
  := by
  simp only [jsonUnsigned?, bind, Option.bind_eq_some_iff, Prod.exists, Option.some.injEq,
    Prod.mk.injEq] at h
  obtain ⟨_, _, h₁, _, _, h₂, _, _, h₃, -, rfl⟩ := h
  have := jsonWhole?_length h₁
  have := jsonFraction?_length h₂
  have := exponent?_length h₃
  omega

theorem json?_length {s rest : Text} {x : Number} (h : json? s = some (x, rest)) :
  rest.length < s.length
  := by
  cases s with
  | nil => simp [json?] at h
  | cons u r =>
    simp only [json?] at h
    split at h
    · have := jsonUnsigned?_length h
      simp only [List.length_cons]
      omega
    · exact jsonUnsigned?_length h

/-! ### Numerals by free rules -/

/-- An integer in another base than ten after `0` and the letter of the base. -/
def based? : Text → Option Number
  | zero :: letter :: u :: r =>
    let base :=
      if letter.toLower = CodeUnit.ofChar 'x' then 16
      else if letter.toLower = CodeUnit.ofChar 'o' then 8
      else if letter.toLower = CodeUnit.ofChar 'b' then 2
      else 0
    let isDigit (v : CodeUnit) : Bool :=
      match v.digitValue? with
      | some d => d < base
      | none => false
    if zero = CodeUnit.ofChar '0' ∧ (u :: r).all isDigit then
      some (ofMagnitude (Text.digitsValue base (u :: r)) 0)
    else none
  | _ => none

/-- A decimal numeral that is the whole text; a point needs digits on one of its sides. -/
def free? (s : Text) : Option Number :=
  let (negative, s₁) := sign s
  if s₁ = Text.ofString "Infinity" then some (infinity negative)
  else
    let (whole, s₂) := digits s₁
    let (part, s₃) := (fraction? s₂).getD ([], s₂)
    if whole = [] ∧ part = [] then none
    else match exponent? s₃ with
      | some (exponent, []) => some (ofParts negative whole part exponent)
      | _ => none

/-- The number that a text denotes by the free rules: an empty text is 0, and what is no
numeral is not a number. -/
def ofText (t : Text) : Number :=
  let s := t.trim
  if s = [] then int 0 else ((based? s).orElse fun _ => free? s).getD nan

end Number

end StackMachine
