import StackMachine.Number.Shortest
import StackMachine.Proofs.Number.Significand

/-!
# Rounding intervals

The natural numbers that round to a natural number of more than 53 bits: those within half a unit
of its last place, and below a power of two within a quarter.  The interval that is kept for the
shortest decimal holds exactly those, and each of them is read as the number.
-/

namespace StackMachine

namespace Number

/-- A natural number that is a significand of 53 bits before some zeros. -/
structure Normal (n m q : Nat) : Prop where
  eq : n = m * 2 ^ q
  low : 2 ^ 52 ≤ m
  high : m < 2 ^ 53
  pos : 0 < q

/-- A number after `2 ^ 53` with at most 53 significant bits has exactly so many. -/
theorem exists_normal {n : Nat} (h : Has53Bits n) (hn : 2 ^ 53 < n) :
  ∃ m q, Normal n m q
  := by
  obtain ⟨m, hm⟩ := h
  have hne : n ≠ 0 := by omega
  have hlow := Nat.log2_self_le hne
  have hhigh := @Nat.lt_log2_self n
  have hlog : 53 ≤ n.log2 := (Nat.le_log2 hne).mpr (Nat.le_of_lt hn)
  generalize hq : n.log2 - 52 = q at hm
  have hsplit : n.log2 = 52 + q := by omega
  rw [hsplit, Nat.pow_add, hm, Nat.mul_comm (2 ^ q)] at hlow
  rw [hsplit, Nat.add_right_comm, Nat.pow_add, hm, Nat.mul_comm (2 ^ q)] at hhigh
  use m, q
  constructor
  · rw [hm, Nat.mul_comm]
  · exact Nat.le_of_mul_le_mul_right hlow (by positivity)
  · exact Nat.lt_of_mul_lt_mul_right hhigh
  · omega

/-- The lower end of the values that round to a significand, in quarters of the last place. -/
def lowEnd (m : Nat) : Nat := if m = 2 ^ 52 then 4 * m - 1 else 4 * m - 2

/-- A natural number that rounds to a significand before some zeros.  Half-way between two numbers
it rounds to the even significand. -/
structure Rounds (m q x : Nat) : Prop where
  low : lowEnd m * 2 ^ q ≤ 4 * x
  high : 4 * x ≤ (4 * m + 2) * 2 ^ q
  strict : m % 2 ≠ 0 → lowEnd m * 2 ^ q < 4 * x ∧ 4 * x < (4 * m + 2) * 2 ^ q

/-! ### Quotients -/

/-- A quotient rounds to an integer from which it is less than a half away, or to an even one from
which it is a half away. -/
theorem roundDiv_eq {a b m : Nat} (hb : 0 < b) (hlow : 2 * (m * b) ≤ 2 * a + b)
    (hhigh : 2 * a ≤ 2 * (m * b) + b)
    (heven : 2 * (m * b) = 2 * a + b ∨ 2 * a = 2 * (m * b) + b → m % 2 = 0) :
  roundDiv a b = m
  := by
  have hdiv := Nat.div_add_mod' a b
  have hmod := Nat.mod_lt a hb
  have hle : m ≤ a / b + 1 := by
    apply Nat.le_of_lt_succ
    apply Nat.lt_of_mul_lt_mul_right (a := b)
    rw [Nat.succ_mul, Nat.succ_mul]
    omega
  have hge : a / b ≤ m := by
    apply Nat.le_of_lt_succ
    apply Nat.lt_of_mul_lt_mul_right (a := b)
    rw [Nat.succ_mul]
    omega
  rw [roundDiv]
  have hm : m = a / b ∨ m = a / b + 1 := by omega
  generalize a / b = d at hdiv hm
  generalize a % b = r at hdiv hmod
  rcases hm with rfl | rfl
  · have hr : 2 * r ≤ b := by omega
    rcases Nat.lt_or_eq_of_le hr with hlt | htie
    · rw [if_pos hlt]
    · have := heven (.inr (by omega))
      rw [if_neg (by omega), if_neg (by omega), if_pos this]
  · have hmul : (d + 1) * b = d * b + b := Nat.succ_mul d b
    have hr : b ≤ 2 * r := by omega
    rcases Nat.lt_or_eq_of_le hr with hlt | htie
    · rw [if_neg (by omega), if_pos hlt]
    · have := heven (.inl (by omega))
      rw [if_neg (by omega), if_neg (by omega), if_neg (by omega)]

/-! ### Places -/

theorem lastPlace_one {x : Nat} (hx : 2 ^ 52 ≤ x) :
  lastPlace x 1 = (x.log2 - 52 : Nat)
  := by
  have hne : x ≠ 0 := by omega
  have hlog : 52 ≤ x.log2 := (Nat.le_log2 hne).mpr hx
  have hexponent : binaryExponent x 1 = x.log2 := by
    have hone : Nat.log2 1 = 0 := rfl
    simp only [binaryExponent, hone, Int.natCast_zero, Int.sub_zero]
    apply if_pos
    rw [powTwo_natCast, powTwo_neg_natCast, Nat.one_mul, Nat.mul_one]
    exact Nat.log2_self_le hne
  rw [lastPlace, hexponent]
  omega

theorem significand_one {x : Nat} (hx : 2 ^ 52 ≤ x) :
  significand x 1 = roundDiv x (2 ^ (x.log2 - 52))
  := by
  rw [significand, lastPlace_one hx, powTwo_natCast, powTwo_neg_natCast, Nat.one_mul, Nat.mul_one]

/-- The place of a natural number of 53 bits before some places. -/
theorem log2_eq_add {x k : Nat} (hlow : 2 ^ 52 * 2 ^ k ≤ x) (hhigh : x < 2 ^ 53 * 2 ^ k) :
  2 ^ 52 ≤ x ∧ x.log2 - 52 = k
  := by
  have hx : 2 ^ 52 ≤ x := Nat.le_trans (Nat.le_mul_of_pos_right _ (by positivity)) hlow
  have hlog : x.log2 = 52 + k := by
    apply (Nat.log2_eq_iff (by omega)).mpr
    rw [Nat.add_right_comm, Nat.pow_add, Nat.pow_add _ (52 + 1)]
    exact ⟨hlow, hhigh⟩
  exact ⟨hx, by omega⟩

/-- The natural numbers from here on are infinite as numbers, if they have only 53 bits. -/
def firstInfinite : Nat := Nat.pow 2 1024

/-- What is written without an exponent is far below. -/
theorem lt_firstInfinite {n : Nat} (h : n < 10 ^ 21) :
  n < firstInfinite
  := by
  have hpow : ∀ b, 70 ≤ b → n < Nat.pow 2 b := by
    intro b hb
    exact Nat.lt_of_lt_of_le (Nat.lt_trans h (by decide)) (Nat.pow_le_pow_right (by decide) hb)
  unfold firstInfinite
  exact hpow 1024 (by decide)

/-- A natural number that is one of the floating-point numbers. -/
structure IsFloat (n : Nat) : Prop where
  has53Bits : Has53Bits n
  finite : n < firstInfinite

theorem isFloat_of_le {n : Nat} (h : n ≤ 2 ^ 53) :
  IsFloat n
  := ⟨has53Bits_of_le h, lt_firstInfinite (Nat.lt_of_le_of_lt h (by decide))⟩

/-- What a natural number rounds to, if its place is known. -/
theorem nearest_of_roundDiv {x k m : Nat} (hlow : 2 ^ 52 * 2 ^ k ≤ x) (hhigh : x < 2 ^ 53 * 2 ^ k)
    (hround : roundDiv x (2 ^ k) = m) (hsize : m * 2 ^ k < firstInfinite) :
  nearest x 1 = int (m * 2 ^ k : Nat)
  := by
  obtain ⟨hx, hplace⟩ := log2_eq_add hlow hhigh
  unfold firstInfinite at hsize
  simp only [nearest]
  rw [lastPlace_one hx, significand_one hx, hplace, hround, powTwo_natCast,
    if_neg (Nat.not_le_of_lt hsize)]
  rfl

variable {n m q x : Nat}

/-- The last place of a number of more than 53 bits, and its significand. -/
theorem Normal.significand (hn : Normal n m q) :
  lastPlace n 1 = q ∧ significand n 1 = m
  := by
  have hlow : 2 ^ 52 * 2 ^ q ≤ n := by
    rw [hn.eq]
    exact Nat.mul_le_mul_right _ hn.low
  have hhigh : n < 2 ^ 53 * 2 ^ q := by
    rw [hn.eq]
    exact Nat.mul_lt_mul_of_pos_right hn.high (by positivity)
  obtain ⟨hle, hplace⟩ := log2_eq_add hlow hhigh
  rw [lastPlace_one hle, significand_one hle, hplace]
  constructor
  · rfl
  · have hpos : 0 < 2 ^ q := by positivity
    apply roundDiv_eq hpos <;> rw [hn.eq] <;> omega

theorem Normal.significand_pos (hn : Normal n m q) :
  0 < m
  := Nat.lt_of_lt_of_le (by decide) hn.low

theorem Normal.zero_lt (hn : Normal n m q) :
  0 < n
  := by
  rw [hn.eq]
  exact Nat.mul_pos hn.significand_pos (by positivity)

theorem highEnd_mul (m b : Nat) :
  (4 * m + 2) * b = 4 * (m * b) + 2 * b
  := by ring

theorem lowEnd_mul (hm : 0 < m) (b : Nat) :
  4 * (m * b) ≤ lowEnd m * b + 2 * b
  := by
  have hle : 4 * m ≤ lowEnd m + 2 := by
    rw [lowEnd]
    split <;> omega
  calc 4 * (m * b) = 4 * m * b := by ring
    _ ≤ (lowEnd m + 2) * b := Nat.mul_le_mul_right b hle
    _ = lowEnd m * b + 2 * b := by ring

theorem lowEnd_lt (hm : 0 < m) :
  lowEnd m < 4 * m
  := by
  rw [lowEnd]
  split <;> omega

/-- What is below a number and after the low end rounds to it. -/
theorem rounds_of_le (hle : x ≤ m * 2 ^ q) (hlow : lowEnd m * 2 ^ q < 4 * x) :
  Rounds m q x
  := by
  have hpos : 0 < 2 ^ q := by positivity
  have hhigh : 4 * x < (4 * m + 2) * 2 ^ q := by
    rw [highEnd_mul]
    omega
  exact ⟨Nat.le_of_lt hlow, Nat.le_of_lt hhigh, fun _ => ⟨hlow, hhigh⟩⟩

/-- What is after a number and before the high end rounds to it. -/
theorem rounds_of_ge (hm : 0 < m) (hge : m * 2 ^ q ≤ x) (hhigh : 4 * x < (4 * m + 2) * 2 ^ q) :
  Rounds m q x
  := by
  have hlow : lowEnd m * 2 ^ q < 4 * x := by
    have := Nat.mul_lt_mul_of_pos_right (lowEnd_lt hm) (by positivity : 0 < 2 ^ q)
    rw [Nat.mul_assoc] at this
    omega
  exact ⟨Nat.le_of_lt hlow, Nat.le_of_lt hhigh, fun _ => ⟨hlow, hhigh⟩⟩

/-- What rounds to a number of 53 bits and has the same place is read as it. -/
theorem Rounds.nearest_of_le (h : Rounds m q x) (hn : Normal n m q) (hsize : n < firstInfinite)
    (hx : 2 ^ 52 * 2 ^ q ≤ x) :
  nearest x 1 = int n
  := by
  have hpos : 0 < 2 ^ q := by positivity
  have hlow := h.low
  have hhigh := h.high
  rw [highEnd_mul] at hhigh
  have hends := lowEnd_mul hn.significand_pos (2 ^ q)
  rw [hn.eq] at hsize ⊢
  apply nearest_of_roundDiv hx _ _ hsize
  · have := Nat.mul_le_mul_right (2 ^ q) (Nat.succ_le_of_lt hn.high)
    rw [Nat.succ_mul] at this
    omega
  · apply roundDiv_eq hpos
    · omega
    · omega
    · intro htie
      by_contra hodd
      obtain ⟨hlow', hhigh'⟩ := h.strict hodd
      rw [highEnd_mul] at hhigh'
      omega

/-- What rounds to a number of 53 bits and has the place below is read as it: the number is a
power of two. -/
theorem Rounds.nearest_of_lt (h : Rounds m q x) (hn : Normal n m q) (hsize : n < firstInfinite)
    (hx : x < 2 ^ 52 * 2 ^ q) :
  nearest x 1 = int n
  := by
  have hlow := h.low
  have hleast : m = 2 ^ 52 := by
    by_contra hne
    have hend : lowEnd m = 4 * m - 2 := if_neg hne
    have hle : 2 ^ 54 ≤ lowEnd m := by
      have := hn.low
      omega
    have := Nat.mul_le_mul_right (2 ^ q) hle
    omega
  obtain ⟨k, rfl⟩ : ∃ k, q = k + 1 := ⟨q - 1, (Nat.sub_add_cancel hn.pos).symm⟩
  have hlow' : (2 ^ 54 - 1) * 2 ^ (k + 1) ≤ 4 * x := by
    rw [hleast] at hlow
    exact hlow
  have hn' : n = 2 ^ 53 * 2 ^ k := by
    rw [hn.eq, hleast]
    ring
  have hk : 0 < 2 ^ k := by positivity
  rw [Nat.pow_succ] at hx hlow'
  rw [hn'] at hsize ⊢
  apply nearest_of_roundDiv _ _ _ hsize
  · omega
  · omega
  · apply roundDiv_eq hk
    · omega
    · omega
    · intro _
      rfl

/-- A number that rounds to a number of 53 bits is read as it. -/
theorem Rounds.nearest (h : Rounds m q x) (hn : Normal n m q) (hsize : n < firstInfinite) :
  nearest x 1 = int n
  := by
  by_cases hx : 2 ^ 52 * 2 ^ q ≤ x
  · exact h.nearest_of_le hn hsize hx
  · exact h.nearest_of_lt hn hsize (Nat.not_le.mp hx)

end Number

end StackMachine
