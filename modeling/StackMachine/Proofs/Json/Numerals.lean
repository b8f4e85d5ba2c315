import StackMachine.Proofs.Json.Scalars
import StackMachine.Proofs.Number.Conversion
import StackMachine.Proofs.Number.Plain

/-!
# Integers in JSON

An integer that is a floating-point number is written in JSON by its digits, or, if it has too many
of them, by its first digits and a power of ten.  Both read back as the integer, before a text that
does not go on with the numeral.
-/

namespace StackMachine

/-! ### Digits and zeros -/

theorem Text.digitsValue_append_zeros (t : Text) (k : Nat) :
  digitsValue 10 (t ++ List.replicate k (CodeUnit.ofChar '0')) = digitsValue 10 t * 10 ^ k
  := by
  induction k with
  | zero => rw [List.replicate_zero, List.append_nil, Nat.pow_zero, Nat.mul_one]
  | succ k ih =>
    have hzero : CodeUnit.ofChar '0' = digit 0 := rfl
    rw [hzero] at ih ⊢
    rw [List.replicate_succ', ← List.append_assoc, digitsValue_append_digit _ (by decide), ih,
      Nat.pow_succ]
    ring

namespace Number

variable {n : Nat}

/-! ### Reading the shortest decimal -/

/-- Below the first that is infinite, natural numbers have at most 309 digits. -/
theorem length_toDigits_le (h : n < firstInfinite) :
  (Nat.toDigits 10 n).length ≤ 309
  := by
  apply (Nat.length_toDigits_le_iff (by decide) (by decide)).mpr
  apply Nat.lt_trans h
  unfold firstInfinite
  decide +kernel

/-- Digits and a power of ten that make up what is shown for an integer are read as the integer. -/
theorem ofMagnitude_shown (hn : IsFloat n) (hgt : 2 ^ 53 < n) {digits e : Nat}
    (h : digits * 10 ^ e = shown n) :
  ofMagnitude digits e = int n
  := by
  obtain ⟨m, q, s, p, hnormal, -, -, hround, -, hhigh⟩ := exists_shown hn.has53Bits hgt
  have hshown := lt_shown hn.has53Bits hgt
  have hlength := length_toDigits_le hn.finite
  rw [← h] at hround hhigh hshown
  have hpos : 0 < digits := by
    apply Nat.pos_of_ne_zero
    rintro rfl
    rw [Nat.zero_mul] at hshown
    cases hshown
  have hsize : (Nat.toDigits 10 digits).length + e ≤ 310 := by
    have hlow := Nat.mul_le_mul_right (10 ^ e) (pow_length_toDigits hpos).1
    rw [← Nat.pow_add] at hlow
    have hle := (Nat.pow_le_pow_iff_right (by decide)).mp (Nat.le_trans hlow hhigh)
    omega
  have hgreat : ¬ digits * 10 ^ e ≤ Nat.pow 2 53 := Nat.not_le.mpr hshown
  -- the decimal is not 0, neither too great nor too small, and no exact integer: so it is rounded
  rw [ofMagnitude, if_neg (Nat.pos_iff_ne_zero.mp hpos)]
  simp only [powTen_natCast, powTen_neg_natCast]
  rw [if_neg (by omega), if_neg (by omega), if_neg fun hsmall => hgreat hsmall.2]
  exact hround.nearest hnormal hn.finite

/-- What is shown for an integer reads back as the integer. -/
theorem ofMagnitude_shown_zero (hn : IsFloat n) :
  ofMagnitude (shown n) 0 = int n
  := by
  by_cases hle : n ≤ 2 ^ 53
  · rw [shown_of_le hle, ofMagnitude_exact hle]
  · apply ofMagnitude_shown hn (Nat.not_le.mp hle) (e := 0)
    rw [Nat.pow_zero, Nat.mul_one]

/-! ### Numerals with an exponent -/

/-- A power of ten at the end of a numeral. -/
def power (k : Nat) : Text := Text.ofString "e+" ++ Text.ofNat k

/-- A digit, further digits behind a point if there are any, and a power of ten. -/
def scientific (u : CodeUnit) : Text → Nat → Text
  | [], k => u :: power k
  | v :: part, k => u :: CodeUnit.ofChar '.' :: v :: part ++ power k

/-- An integer from `10 ^ 21` on is written by a power of ten and digits that make up what is shown
for it. -/
theorem exists_scientific (h53 : Has53Bits n) (hge : 10 ^ 21 ≤ n) :
  ∃ u part e, (int n).toText = scientific u part (e + part.length)
    ∧ (∀ v ∈ u :: part, v.isDigit = true)
    ∧ Text.digitsValue 10 (u :: part) * 10 ^ e = shown n
  := by
  have hgt : 2 ^ 53 < n := Nat.lt_of_lt_of_le (by decide) hge
  obtain ⟨s, p, hshortest, hs, hshown⟩ := exists_shortest_shown h53 hgt
  have hge := mt (shown_lt_iff h53).mp (Nat.not_lt.mpr hge)
  rw [hshown, mul_pow_lt_iff hs] at hge
  have hstrip := Text.strip_append (CodeUnit.ofChar '0') (Text.ofNat s)
  have hvalue := congrArg (Text.digitsValue 10) hstrip
  rw [Text.digitsValue_append_zeros, Text.digitsValue_ofNat] at hvalue
  have hall := Text.isDigit_of_mem_ofNat (n := s)
  have hlength := congrArg List.length hstrip
  rw [List.length_append, List.length_replicate] at hlength
  rw [← hstrip] at hall
  rw [toText_of_gt hgt]
  simp only [magnitudeText, hshortest]
  -- of the digits before the zeros all that matters is that zeros make up the rest of `s`
  generalize ((Text.ofNat s).reverse.dropWhile (· == CodeUnit.ofChar '0')).reverse = digits
    at hvalue hall hlength ⊢
  cases digits with
  | nil =>
    change 0 * _ = s at hvalue
    omega
  | cons u part =>
    have hexponent : ((Text.ofNat s).length + (p : Int) - 1).natAbs
        = (Text.ofNat s).length - (part.length + 1) + p + part.length := by
      rw [List.length_cons] at hlength
      omega
    refine ⟨u, part, (Text.ofNat s).length - (part.length + 1) + p, ?_, ?_, ?_⟩
    · simp only [pointed]
      rw [if_neg (by omega), if_neg (by omega), if_neg (by omega), if_neg (by omega), hexponent]
      cases part with
      | nil => rfl
      | cons v part => rw [List.append_assoc, scientific, power]
    · intro v hv
      exact hall v (List.mem_append_left _ hv)
    · rw [hshown, Nat.pow_add, ← Nat.mul_assoc]
      exact congrArg (· * 10 ^ p) hvalue

/-! ### Reading numerals -/

variable {rest : Text}

/-- A single digit is the whole part of a numeral. -/
theorem jsonWhole?_digit {u : CodeUnit} (hu : u.isDigit = true)
    (h : Text.Stops CodeUnit.isDigit rest) :
  jsonWhole? (u :: rest) = some ([u], rest)
  := by
  have hall : ∀ v ∈ [u], v.isDigit = true := by
    rintro v hv
    rw [List.mem_singleton.mp hv, hu]
  rw [jsonWhole?, digits, ← List.singleton_append, Text.takeWhile_append hall h,
    Text.dropWhile_append hall h]
  exact if_neg fun hzero => hzero.2 rfl

/-- Digits behind a point are the fraction of a numeral. -/
theorem jsonFraction?_point {u : CodeUnit} {part : Text} (hall : ∀ v ∈ u :: part, v.isDigit = true)
    (h : Text.Stops CodeUnit.isDigit rest) :
  jsonFraction? (CodeUnit.ofChar '.' :: u :: part ++ rest) = some (u :: part, rest)
  := by
  rw [jsonFraction?, List.cons_append, fraction?, if_pos rfl, digits,
    Text.takeWhile_append hall h, Text.dropWhile_append hall h]

theorem stops_power (k : Nat) :
  Text.Stops CodeUnit.isDigit (power k ++ rest)
  := rfl

theorem exponent?_power (k : Nat) (h : Ends rest) :
  exponent? (power k ++ rest) = some ((k : Int), rest)
  := by
  have htext : power k ++ rest
      = CodeUnit.ofChar 'e' :: CodeUnit.ofChar '+' :: (Text.ofNat k ++ rest) := rfl
  have hsign : sign (CodeUnit.ofChar '+' :: (Text.ofNat k ++ rest))
      = (false, Text.ofNat k ++ rest) := rfl
  have hne := Text.ofNat_ne_nil k
  rw [htext, exponent?, if_pos (by decide), hsign]
  simp only [digits, Text.takeWhile_append Text.isDigit_of_mem_ofNat h.digit,
    Text.dropWhile_append Text.isDigit_of_mem_ofNat h.digit]
  cases hk : Text.ofNat k with
  | nil => cases hne hk
  | cons u ds =>
    simp only [← hk, Text.digitsValue_ofNat]
    rfl

/-- A numeral with an exponent reads back by its parts. -/
theorem jsonUnsigned?_scientific (negative : Bool) {u : CodeUnit} {part : Text}
    (hall : ∀ v ∈ u :: part, v.isDigit = true) (k : Nat) (h : Ends rest) :
  jsonUnsigned? negative (scientific u part k ++ rest) = some (ofParts negative [u] part k, rest)
  := by
  obtain ⟨hu, hpart⟩ := List.forall_mem_cons.mp hall
  cases part with
  | nil =>
    have hpoint : jsonFraction? (power k ++ rest) = some ([], power k ++ rest) := rfl
    rw [scientific, List.cons_append]
    simp only [jsonUnsigned?, jsonWhole?_digit hu (stops_power k), hpoint, exponent?_power k h,
      bind, Option.bind_some]
  | cons v part =>
    have hstops : Text.Stops CodeUnit.isDigit
        (CodeUnit.ofChar '.' :: v :: part ++ (power k ++ rest)) := rfl
    have htext : scientific u (v :: part) k ++ rest
        = u :: (CodeUnit.ofChar '.' :: v :: part ++ (power k ++ rest)) := by
      rw [scientific, List.append_assoc, List.cons_append]
    rw [htext]
    simp only [jsonUnsigned?, jsonWhole?_digit hu hstops, jsonFraction?_point hpart (stops_power k),
      exponent?_power k h, bind, Option.bind_some]

/-- A floating-point number that is a natural number reads back as itself. -/
theorem jsonUnsigned?_toText (negative : Bool) (hn : IsFloat n) (h : Ends rest) :
  jsonUnsigned? negative ((int n).toText ++ rest)
    = some (if negative then (int n).neg else int n, rest)
  := by
  by_cases hlt : n < 10 ^ 21
  · rw [toText_of_lt hn.has53Bits hlt, jsonUnsigned?_ofNat negative _ h, ofDecimal]
    simp only [ofMagnitude_shown_zero hn]
  · obtain ⟨u, part, e, htext, hall, hvalue⟩ := exists_scientific hn.has53Bits (Nat.not_lt.mp hlt)
    have hgt : 2 ^ 53 < n := Nat.lt_of_lt_of_le (by decide) (Nat.not_lt.mp hlt)
    have hexponent : ((e + part.length : Nat) : Int) - part.length = e := by
      omega
    rw [htext, jsonUnsigned?_scientific negative hall _ h, ofParts, hexponent, ofDecimal,
      List.singleton_append]
    simp only [ofMagnitude_shown hn hgt hvalue]

/-! ### Integers -/

/-- The text of a natural number begins with a digit, and has no controls. -/
theorem exists_cons_toText (h53 : Has53Bits n) :
  ∃ u r, (int n).toText = u :: r ∧ u.isDigit = true ∧ r.all CodeUnit.isPrintable = true
  := by
  have hprintable {t : Text} (h : ∀ u ∈ t, u.isDigit = true) :
      t.all CodeUnit.isPrintable = true :=
    List.all_eq_true.mpr fun u hu => Json.isPrintable_of_isDigit (h u hu)
  by_cases hlt : n < 10 ^ 21
  · obtain ⟨u, r, hu, hdigit, -⟩ := Text.exists_cons_ofNat (shown n)
    have hall := Text.isDigit_of_mem_ofNat (n := shown n)
    rw [hu] at hall
    rw [toText_of_lt h53 hlt]
    exact ⟨u, r, hu, hdigit, hprintable (List.forall_mem_cons.mp hall).2⟩
  · obtain ⟨u, part, e, htext, hall, -⟩ := exists_scientific h53 (Nat.not_lt.mp hlt)
    obtain ⟨hu, hpart⟩ := List.forall_mem_cons.mp hall
    have hpower : (power (e + part.length)).all CodeUnit.isPrintable = true := by
      rw [power, List.all_append, hprintable Text.isDigit_of_mem_ofNat]
      rfl
    rw [htext]
    cases part with
    | nil => exact ⟨u, _, rfl, hu, hpower⟩
    | cons v part =>
      refine ⟨u, _, List.cons_append, hu, ?_⟩
      rw [List.all_append, List.all_cons, hprintable hpart, hpower]
      rfl

/-- A negative integer is written with a minus sign before its magnitude. -/
theorem toText_negSucc (k : Nat) :
  (int (.negSucc k)).toText = CodeUnit.ofChar '-' :: (int (k + 1 : Nat)).toText
  := by
  have hnonneg : ¬ ((k + 1 : Nat) : Int) < 0 := by
    omega
  rw [toText, toText, if_pos (Int.negSucc_lt_zero k), if_neg hnonneg, Int.natAbs_negSucc,
    Int.natAbs_natCast]
  split
  · rfl
  · rfl

variable {v : Int} (hv : IsFloat v.natAbs)

include hv

/-- The text of an integer begins with a minus sign or a digit, and has no controls. -/
theorem exists_cons_toText_int :
  ∃ u r, (int v).toText = u :: r ∧ (u = CodeUnit.ofChar '-' ∨ u.isDigit = true)
    ∧ (int v).toText.all CodeUnit.isPrintable = true
  := by
  obtain ⟨u, r, hu, hdigit, hr⟩ := exists_cons_toText hv.has53Bits
  have hall : (u :: r).all CodeUnit.isPrintable = true := by
    rw [List.all_cons, Json.isPrintable_of_isDigit hdigit, hr]
    rfl
  cases v with
  | ofNat n => exact ⟨u, r, hu, .inr hdigit, hu ▸ hall⟩
  | negSucc n =>
    rw [toText_negSucc]
    refine ⟨_, _, rfl, .inl rfl, ?_⟩
    change (int (n + 1 : Nat)).toText = u :: r at hu
    rw [hu, List.all_cons, hall]
    rfl

/-- An integer that is a floating-point number reads back as itself. -/
theorem json?_toText (h : Ends rest) :
  json? ((int v).toText ++ rest) = some (int v, rest)
  := by
  cases v with
  | ofNat n =>
    obtain ⟨u, r, hu, hdigit, -⟩ := exists_cons_toText (n := n) hv.has53Bits
    have hsign : u ≠ CodeUnit.ofChar '-' := by
      rintro rfl
      contradiction
    have hread := jsonUnsigned?_toText false (n := n) hv h
    change json? ((int (n : Nat)).toText ++ rest) = _
    rw [hu, List.cons_append] at hread ⊢
    rw [json?, if_neg hsign, hread]
    rfl
  | negSucc n =>
    have hread := jsonUnsigned?_toText true (n := n + 1) hv h
    rw [toText_negSucc, List.cons_append, json?, if_pos rfl, hread]
    rfl

end Number

end StackMachine
