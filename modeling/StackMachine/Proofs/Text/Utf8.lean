import Mathlib.Data.List.Infix
import StackMachine.Text.Utf8

/-!
# ASCII texts

A text of ASCII units is written as one byte for each of its units, and is read back from them.
What a text has at its end in ASCII units is not touched when its lone surrogates are replaced.
-/

namespace StackMachine

namespace CodeUnit

/-- A unit of seven bits. -/
def IsAscii (u : CodeUnit) : Prop := u < 0x80

instance : DecidablePred IsAscii := fun u => inferInstanceAs (Decidable (u < 0x80))

variable {u : CodeUnit}

theorem IsAscii.toNat_lt (h : u.IsAscii) :
  u.toNat < 0x80
  := UInt16.lt_iff_toNat_lt.mp h

/-- No ASCII unit is part of a surrogate pair. -/
theorem IsAscii.not_surrogate (h : u.IsAscii) :
  isLeading u = false ∧ isTrailing u = false
  := by
  have hlt := h.toNat_lt
  simp only [isLeading, isTrailing, UInt16.le_iff_toNat_le, UInt16.lt_iff_toNat_lt,
    Bool.and_eq_false_iff, decide_eq_false_iff_not, UInt16.reduceToNat]
  omega

end CodeUnit

namespace Text

/-- A text of ASCII units. -/
def IsAscii (t : Text) : Prop := ∀ u ∈ t, CodeUnit.IsAscii u

instance : DecidablePred IsAscii := fun t => List.decidableBAll CodeUnit.IsAscii t

theorem isAscii_cons {u : CodeUnit} {t : Text} :
  IsAscii (u :: t) ↔ u.IsAscii ∧ IsAscii t
  := List.forall_mem_cons

theorem toChars_of_isAscii {t : Text} (h : t.IsAscii) :
  toChars t = t.map fun u => Char.ofNat u.toNat
  := by
  have hlone {u : CodeUnit} (hu : u.IsAscii) : loneChar u = Char.ofNat u.toNat := by
    rw [loneChar, hu.not_surrogate.1, hu.not_surrogate.2]
    rfl
  induction t using toChars.induct with
  | case1 => rfl
  | case2 u => rw [toChars, hlone (isAscii_cons.mp h).1, List.map_singleton]
  | case3 u v r hpair _ =>
    rw [(isAscii_cons.mp h).1.not_surrogate.1] at hpair
    cases hpair
  | case4 u v r hpair ih =>
    rw [toChars, if_neg hpair, hlone (isAscii_cons.mp h).1, ih (isAscii_cons.mp h).2]
    rfl

end Text

/-! ### Bytes -/

namespace Utf8

theorem utf8EncodeChar_of_isAscii {u : CodeUnit} (h : u.IsAscii) :
  String.utf8EncodeChar (Char.ofNat u.toNat) = [u.toUInt8]
  := by
  have hlt := h.toNat_lt
  have hvalid : u.toNat.isValidChar := .inl (by omega)
  have hval : (Char.ofNat u.toNat).val.toNat = u.toNat := by
    rw [Char.ofNat, dif_pos hvalid]
    rfl
  have hsize : (Char.ofNat u.toNat).utf8Size = 1 := by
    rw [Char.utf8Size_eq_one_iff, UInt32.le_iff_toNat_le, hval]
    exact Nat.le_of_lt_succ hlt
  rw [String.utf8EncodeChar_eq_singleton hsize, List.singleton_inj, ← UInt8.toNat_inj,
    UInt32.toNat_toUInt8, hval, UInt16.toNat_toUInt8]

theorem encode_of_isAscii {t : Text} (h : t.IsAscii) :
  encode t = t.map UInt16.toUInt8
  := by
  rw [encode, Text.toChars_of_isAscii h, List.flatMap_map, List.map_eq_flatMap]
  apply List.flatMap_congr
  intro u hu
  apply utf8EncodeChar_of_isAscii (h u hu)

theorem lead_of_isAscii {u : CodeUnit} (h : u.IsAscii) :
  lead u.toUInt8 = ([u], none)
  := by
  have hlt := h.toNat_lt
  have htoNat : u.toUInt8.toNat = u.toNat := by
    rw [UInt16.toNat_toUInt8]
    omega
  have hbyte : u.toUInt8 < 0x80 := by
    rw [UInt8.lt_iff_toNat_lt, htoNat]
    exact hlt
  rw [lead, if_pos hbyte, UInt16.toNat_inj.mp ((UInt8.toNat_toUInt16 _).trans htoNat)]

/-- An ASCII text is read back from its bytes. -/
theorem decode_encode {t : Text} (h : t.IsAscii) :
  decode (encode t) = t
  := by
  rw [encode_of_isAscii h, decode]
  induction t with
  | nil => rfl
  | cons u r ih =>
    rw [List.map_cons, decodeFrom, step, lead_of_isAscii (Text.isAscii_cons.mp h).1]
    rw [ih (Text.isAscii_cons.mp h).2]
    rfl

end Utf8

/-! ### Lone surrogates -/

namespace CodeUnit

/-- A unit as far as it is ASCII: all others are the same. -/
def masked (u : CodeUnit) : CodeUnit := if u.IsAscii then u else 0x80

theorem masked_eq_iff {u v : CodeUnit} (hv : v.IsAscii) :
  u.masked = v ↔ u = v
  := by
  rw [masked]
  split
  · rfl
  · next hu =>
    constructor
    · intro h
      rw [← h] at hv
      exact absurd hv (by decide)
    · rintro rfl
      contradiction

theorem masked_of_surrogate {u : CodeUnit} (h : isLeading u = true ∨ isTrailing u = true) :
  u.masked = 0x80
  := by
  rw [masked, if_neg]
  intro hu
  rw [hu.not_surrogate.1, hu.not_surrogate.2] at h
  simp at h

end CodeUnit

namespace Text

/-- The code point of a character that is made of a valid one. -/
theorem toNat_ofNat {n : Nat} (h : n.isValidChar) :
  (Char.ofNat n).toNat = n
  := by
  rw [Char.ofNat, dif_pos h]
  rfl

/-- The units of a surrogate pair are those of its character. -/
theorem ofChar_pairChar {u v : CodeUnit} (hu : CodeUnit.isLeading u = true)
    (hv : CodeUnit.isTrailing v = true) :
  ofChar (pairChar u v) = [u, v]
  := by
  simp only [CodeUnit.isLeading, CodeUnit.isTrailing, Bool.and_eq_true, decide_eq_true_eq,
    UInt16.le_iff_toNat_le, UInt16.lt_iff_toNat_lt, UInt16.reduceToNat] at hu hv
  have hvalid : (0x10000 + (u.toNat - 0xD800) * 0x400 + (v.toNat - 0xDC00)).isValidChar :=
    .inr (by omega)
  rw [ofChar, pairChar, toNat_ofNat hvalid, ofCodePoint, if_neg (by omega), List.cons.injEq,
    List.singleton_inj, ← UInt16.toNat_inj, ← UInt16.toNat_inj]
  simp only [Nat.toUInt16, UInt16.toNat_ofNat']
  omega

/-- A unit that is no part of a pair is kept, or replaced if it is a surrogate. -/
theorem masked_ofChar_loneChar (u : CodeUnit) :
  (ofChar (loneChar u)).map CodeUnit.masked = [u.masked]
  := by
  rw [loneChar]
  split
  · next h =>
    rw [CodeUnit.masked_of_surrogate (Bool.or_eq_true_iff.mp h)]
    decide
  · next h =>
    have hlt := u.toNat_lt
    have hvalid : u.toNat.isValidChar := by
      simp only [CodeUnit.isLeading, CodeUnit.isTrailing, Bool.or_eq_true, Bool.and_eq_true,
        decide_eq_true_eq, UInt16.le_iff_toNat_le, UInt16.lt_iff_toNat_lt,
        UInt16.reduceToNat] at h
      simp only [Nat.isValidChar]
      omega
    rw [ofChar, toNat_ofNat hvalid, ofCodePoint, if_pos (by omega), Nat.toUInt16, UInt16.ofNat_toNat]
    rfl

/-- Only units that are not ASCII are replaced. -/
theorem map_masked_repaired (t : Text) :
  t.repaired.map CodeUnit.masked = t.map CodeUnit.masked
  := by
  rw [repaired]
  induction t using toChars.induct with
  | case1 => rfl
  | case2 u =>
    rw [toChars, List.flatMap_singleton, masked_ofChar_loneChar]
    rfl
  | case3 u v r hpair ih =>
    obtain ⟨hu, hv⟩ := Bool.and_eq_true_iff.mp hpair
    rw [toChars, if_pos hpair, List.flatMap_cons, List.map_append, ih,
      ofChar_pairChar hu hv]
    rfl
  | case4 u v r hpair ih =>
    rw [toChars, if_neg hpair, List.flatMap_cons, List.map_append, ih, masked_ofChar_loneChar]
    rfl

theorem map_masked_eq_iff {t s : Text} (h : s.IsAscii) :
  t.map CodeUnit.masked = s ↔ t = s
  := by
  induction t generalizing s with
  | nil => rfl
  | cons u r ih =>
    cases s with
    | nil => simp
    | cons v s =>
      obtain ⟨hv, hs⟩ := isAscii_cons.mp h
      rw [List.map_cons, List.cons.injEq, List.cons.injEq, CodeUnit.masked_eq_iff hv, ih hs]

/-- A text ends with an ASCII text exactly if it does so where only ASCII is told apart. -/
theorem suffix_map_masked_iff {ending t : Text} (h : ending.IsAscii) :
  ending <:+ t.map CodeUnit.masked ↔ ending <:+ t
  := by
  constructor
  · rintro ⟨before, hbefore⟩
    obtain ⟨s, r, rfl, -, hr⟩ := List.map_eq_append_iff.mp hbefore.symm
    rw [(map_masked_eq_iff h).mp hr]
    apply List.suffix_append
  · intro hsuffix
    have hsuffix := hsuffix.map CodeUnit.masked
    rwa [(map_masked_eq_iff h).mpr rfl] at hsuffix

/-- A text ends with an ASCII text exactly if it does so with its lone surrogates replaced. -/
theorem suffix_repaired_iff {ending t : Text} (h : ending.IsAscii) :
  ending <:+ t.repaired ↔ ending <:+ t
  := by
  rw [← suffix_map_masked_iff h, map_masked_repaired, suffix_map_masked_iff h]

end Text

end StackMachine
