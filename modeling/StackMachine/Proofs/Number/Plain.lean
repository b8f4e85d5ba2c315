import Mathlib.Data.List.TakeWhile
import StackMachine.Proofs.Number.Shortest

/-!
# Integers that are written plainly

The text of a natural number below `10 ^ 21` is the decimal of an integer, which is the number
itself up to `2 ^ 53`; from `10 ^ 21` on there is an exponent with its sign.  The text of every
number consists of letters, digits and a few marks, and no comment begins in it.
-/

namespace StackMachine

namespace Text

/-- A decimal with zeros after it. -/
theorem ofNat_mul_pow {s : Nat} (hs : 0 < s) (p : Nat) :
  ofNat (s * 10 ^ p) = ofNat s ++ List.replicate p (CodeUnit.ofChar '0')
  := by
  induction p with
  | zero => rw [Nat.pow_zero, Nat.mul_one, List.replicate_zero, List.append_nil]
  | succ p ih =>
    have hpos : 0 < s * 10 ^ p := Nat.mul_pos hs (by positivity)
    have hdigit : digit 0 = CodeUnit.ofChar '0' := rfl
    rw [Nat.pow_succ, ← Nat.mul_assoc, ofNat_of_le (by omega), Nat.mul_div_cancel _ (by decide),
      Nat.mul_mod_left, ih, hdigit, List.append_assoc, ← List.replicate_succ']

/-- A decimal has as many units as digits. -/
theorem length_ofNat (n : Nat) :
  (ofNat n).length = (Nat.toDigits 10 n).length
  := by
  induction n using Nat.strongRecOn with
  | _ n ih =>
    by_cases h : n < 10
    · rw [ofNat_of_lt h, Nat.toDigits_of_lt_base h]
      rfl
    · have hn : 10 ≤ n := Nat.not_lt.mp h
      rw [ofNat_of_le hn, Nat.toDigits_of_base_le (by decide) hn, List.length_append,
        List.length_append, ih (n / 10) (by omega)]
      rfl

/-- A text is what is left of it without a unit at its end, and that unit so many times. -/
theorem strip_append (c : CodeUnit) (t : Text) :
  (t.reverse.dropWhile (· == c)).reverse
      ++ List.replicate (t.length - (t.reverse.dropWhile (· == c)).reverse.length) c
    = t
  := by
  have hsplit := List.takeWhile_append_dropWhile (p := (· == c)) (l := t.reverse)
  have hrun : t.reverse.takeWhile (· == c)
      = List.replicate (t.reverse.takeWhile (· == c)).length c := by
    apply List.eq_replicate_iff.mpr
    use rfl
    intro u hu
    apply eq_of_beq (List.mem_takeWhile_imp (p := (· == c)) hu)
  have hlength := congrArg List.length hsplit
  rw [List.length_append, List.length_reverse] at hlength
  rw [← List.reverse_inj, List.reverse_append, List.reverse_reverse, List.reverse_replicate,
    List.length_reverse, ← hlength, Nat.add_sub_cancel, ← hrun, hsplit]

end Text

/-! ### Units of listings -/

/-- A unit that can be in a listing: a letter, a digit or one of a few marks. -/
def CodeUnit.isListed (u : CodeUnit) : Bool :=
  isWordPart u || (Text.ofString " :.+-\n").contains u

namespace Text

/-- A text that can be in a listing. -/
def IsListed (t : Text) : Prop := t.all CodeUnit.isListed = true

variable {t s : Text}

theorem isListed_append :
  IsListed (t ++ s) ↔ t.IsListed ∧ s.IsListed
  := by
  rw [IsListed, List.all_append, Bool.and_eq_true]
  rfl

theorem isListed_cons {u : CodeUnit} :
  IsListed (u :: t) ↔ u.isListed = true ∧ t.IsListed
  := Bool.and_eq_true_iff

theorem IsListed.of_subset (h : t.IsListed) (hsubset : s ⊆ t) :
  s.IsListed
  := List.all_eq_true.mpr fun u hu => List.all_eq_true.mp h u (hsubset hu)

/-- No comment begins in a listing. -/
theorem IsListed.hash_not_mem (h : t.IsListed) :
  CodeUnit.ofChar '#' ∉ t
  := by
  intro hmem
  cases List.all_eq_true.mp h _ hmem

theorem isListed_ofNat (n : Nat) :
  (Text.ofNat n).IsListed
  := by
  apply List.all_eq_true.mpr
  intro u hu
  rw [CodeUnit.isListed, CodeUnit.isWordPart, Text.isDigit_of_mem_ofNat u hu, Bool.or_true,
    Bool.true_or]

theorem isListed_ofInt (n : Int) :
  (Text.ofInt n).IsListed
  := by
  cases n with
  | ofNat n => apply isListed_ofNat
  | negSucc n => exact isListed_cons.mpr ⟨rfl, isListed_ofNat _⟩

theorem isListed_zeros (k : Nat) :
  IsListed (List.replicate k (CodeUnit.ofChar '0'))
  := by
  apply List.all_eq_true.mpr
  intro u hu
  rw [List.eq_of_mem_replicate hu]
  rfl

end Text

namespace Number

open Text

theorem isListed_pointed {digits : Text} (h : digits.IsListed) (n : Int) :
  (pointed digits n).IsListed
  := by
  have htake (k : Nat) : IsListed (digits.take k) := h.of_subset (List.take_subset _ _)
  have hdrop (k : Nat) : IsListed (digits.drop k) := h.of_subset (List.drop_subset _ _)
  have hzero : IsListed (Text.ofString "0.") := rfl
  have hsign : IsListed (Text.ofString (if n - 1 < 0 then "e-" else "e+")) := by
    split <;> rfl
  have hpoint : CodeUnit.isListed (CodeUnit.ofChar '.') = true := rfl
  simp only [pointed]
  split
  · exact isListed_append.mpr ⟨h, isListed_zeros _⟩
  · split
    · exact isListed_append.mpr ⟨htake _, isListed_cons.mpr ⟨hpoint, hdrop _⟩⟩
    · split
      · exact isListed_append.mpr ⟨isListed_append.mpr ⟨hzero, isListed_zeros _⟩, h⟩
      · rw [isListed_append, isListed_append]
        refine ⟨⟨?_, hsign⟩, isListed_ofNat _⟩
        split
        · rw [isListed_cons] at h ⊢
          exact ⟨h.1, isListed_cons.mpr ⟨hpoint, h.2⟩⟩
        · exact h

theorem isListed_magnitudeText (a b : Nat) :
  (magnitudeText a b).IsListed
  := by
  apply isListed_pointed
  apply (isListed_ofNat (shortest a b).1).of_subset
  intro u hu
  rw [List.mem_reverse] at hu
  exact List.mem_reverse.mp ((List.dropWhile_suffix _).subset hu)

/-- The text of a number can be in a listing. -/
theorem isListed_toText (x : Number) :
  x.toText.IsListed
  := by
  have hsigned (a b : Nat) : IsListed (CodeUnit.ofChar '-' :: magnitudeText a b) :=
    isListed_cons.mpr ⟨rfl, isListed_magnitudeText a b⟩
  cases x with
  | int n =>
    rw [toText]
    split
    · apply isListed_ofInt
    · split
      · apply hsigned
      · apply isListed_magnitudeText
  | fraction m k =>
    rw [toText]
    split
    · apply hsigned
    · apply isListed_magnitudeText
  | infinity negative => cases negative <;> rfl
  | negativeZero | nan => rfl

/-! ### Plain integers -/

variable {a b s p : Nat} (h : shortest a b = (s, (p : Int))) (hs : 0 < s)

include hs in
theorem mul_pow_lt_iff :
  s * 10 ^ p < 10 ^ 21 ↔ (Text.ofNat s).length + p ≤ 21
  := by
  obtain ⟨hlow, hhigh⟩ := pow_length_toDigits hs
  rw [Text.length_ofNat]
  have hlength : 0 < (Nat.toDigits 10 s).length := Nat.length_toDigits_pos
  generalize (Nat.toDigits 10 s).length = count at *
  constructor
  · intro hlt
    by_contra hgt
    have hpow : 10 ^ 21 ≤ 10 ^ (count - 1) * 10 ^ p := by
      rw [← Nat.pow_add]
      exact Nat.pow_le_pow_right (by decide) (by omega)
    have := Nat.mul_le_mul_right (10 ^ p) hlow
    omega
  · intro hle
    calc s * 10 ^ p < 10 ^ count * 10 ^ p := Nat.mul_lt_mul_of_pos_right hhigh (by positivity)
      _ = 10 ^ (count + p) := (Nat.pow_add _ _ _).symm
      _ ≤ 10 ^ 21 := Nat.pow_le_pow_right (by decide) hle

include h hs in
/-- A number whose shortest decimal has at most 21 places is written by its digits. -/
theorem magnitudeText_of_lt (hlt : s * 10 ^ p < 10 ^ 21) :
  magnitudeText a b = Text.ofNat (s * 10 ^ p)
  := by
  have hle := (mul_pow_lt_iff hs).mp hlt
  have hstrip := Text.strip_append (CodeUnit.ofChar '0') (Text.ofNat s)
  simp only [magnitudeText, h]
  generalize ((Text.ofNat s).reverse.dropWhile (· == CodeUnit.ofChar '0')).reverse = digits
    at hstrip ⊢
  have hlength := congrArg List.length hstrip
  rw [List.length_append, List.length_replicate] at hlength
  have hzeros : ((Text.ofNat s).length + (p : Int)).toNat - digits.length
      = (Text.ofNat s).length - digits.length + p := by omega
  simp only [pointed]
  rw [if_pos (by omega), hzeros, List.replicate_add, ← List.append_assoc, hstrip,
    Text.ofNat_mul_pow hs]

include h hs in
/-- A number whose shortest decimal has more places is written with an exponent. -/
theorem plus_mem_magnitudeText (hge : 10 ^ 21 ≤ s * 10 ^ p) :
  CodeUnit.ofChar '+' ∈ magnitudeText a b
  := by
  have hgt := mt (mul_pow_lt_iff (p := p) hs).mpr (Nat.not_lt.mpr hge)
  simp only [magnitudeText, h, pointed]
  rw [if_neg (by omega), if_neg (by omega), if_neg (by omega), if_neg (by omega)]
  apply List.mem_append_left
  apply List.mem_append_right
  decide

section

variable {n : Nat} (h53 : Has53Bits n)

include h53 in
/-- What is shown for an integer after `2 ^ 53` comes from its shortest decimal. -/
theorem exists_shortest_shown (hgt : 2 ^ 53 < n) :
  ∃ s p : Nat, shortest n 1 = (s, (p : Int)) ∧ 0 < s ∧ shown n = s * 10 ^ p
  := by
  obtain ⟨m, q, s, p, -, hshortest, hshown, -⟩ := exists_shown h53 hgt
  refine ⟨s, p, hshortest, ?_, hshown⟩
  apply Nat.pos_of_ne_zero
  rintro rfl
  have := lt_shown h53 hgt
  omega

theorem toText_of_gt (hgt : 2 ^ 53 < n) :
  (int n).toText = magnitudeText n 1
  := by
  have habs : ¬ (n : Int).natAbs ≤ Nat.pow 2 53 := Nat.not_le.mpr hgt
  rw [toText, if_neg habs, if_neg (by omega)]
  rfl

include h53 in
/-- The text of a natural number below `10 ^ 21` is the decimal of what is shown for it. -/
theorem toText_of_lt (hlt : n < 10 ^ 21) :
  (int n).toText = Text.ofNat (shown n)
  := by
  by_cases h : n ≤ 2 ^ 53
  · have habs : (n : Int).natAbs ≤ Nat.pow 2 53 := h
    rw [toText, if_pos habs, shown_of_le h]
    rfl
  · have hgt := Nat.not_le.mp h
    obtain ⟨s, p, hshortest, hs, hshown⟩ := exists_shortest_shown h53 hgt
    rw [← shown_lt_iff h53, hshown] at hlt
    rw [toText_of_gt hgt, hshown, magnitudeText_of_lt hshortest hs hlt]

include h53 in
/-- The text of a natural number from `10 ^ 21` on has an exponent. -/
theorem plus_mem_toText (hge : 10 ^ 21 ≤ n) :
  CodeUnit.ofChar '+' ∈ (int n).toText
  := by
  have hgt : 2 ^ 53 < n := Nat.lt_of_lt_of_le (by decide) hge
  obtain ⟨s, p, hshortest, hs, hshown⟩ := exists_shortest_shown h53 hgt
  have hge := mt (shown_lt_iff h53).mp (Nat.not_lt.mpr hge)
  rw [hshown] at hge
  rw [toText_of_gt hgt]
  exact plus_mem_magnitudeText hshortest hs (Nat.not_lt.mp hge)

end

/-- The text of a negative integer begins with the sign. -/
theorem toText_of_neg {n : Int} (h : n < 0) :
  ∃ t, (int n).toText = CodeUnit.ofChar '-' :: t
  := by
  obtain ⟨k, rfl⟩ := Int.eq_negSucc_of_lt_zero h
  rw [toText]
  split
  · exact ⟨_, rfl⟩
  · exact ⟨_, rfl⟩

end Number

end StackMachine
