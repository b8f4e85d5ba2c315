import StackMachine.Proofs.Number.Rounding
import StackMachine.Proofs.Text.Decimal

/-!
# Shortest decimals of great integers

An integer of more than 53 bits is written by the digits of a number on a grid of powers of ten
that rounds to it, and zeros.  With 17 digits some point of the grid always rounds to the integer,
and no point of a grid finer than the integers is needed.  So the decimal has as many places as
the integer, or it is the next power of ten.
-/

namespace StackMachine

namespace Number

variable {n m q : Nat} (hn : Normal n m q)

/-! ### Intervals -/

/-- The interval of the values that round to a significand before some zeros. -/
def intervalOf (m q : Nat) : Interval :=
  { bits := m, place := q, low := lowEnd m, high := 4 * m + 2, closed := m % 2 = 0 }

/-- The interval of an integer of more than 53 bits. -/
theorem Normal.interval (hn : Normal n m q) :
  interval n 1 = intervalOf m q
  := by
  obtain ⟨hplace, hsignificand⟩ := hn.significand
  have hcondition : (m = Nat.pow 2 52 ∧ (-1074 : Int) < (q : Int)) = (m = 2 ^ 52) := by
    apply propext
    constructor
    · exact And.left
    · intro h
      exact ⟨h, by omega⟩
  simp only [Number.interval, hplace, hsignificand, intervalOf, lowEnd, hcondition]

/-- Quarters of the last place and points of a grid are brought to one denominator. -/
theorem powTwo_place (hq : 0 < q) :
  4 * powTwo ((q : Int) - 2) = 2 ^ q * powTwo (2 - (q : Int))
  := by
  obtain ⟨k, rfl⟩ : ∃ k, q = k + 1 := ⟨q - 1, (Nat.sub_add_cancel hq).symm⟩
  cases k with
  | zero => rfl
  | succ k =>
    have hdown : ((k + 1 + 1 : Nat) : Int) - 2 = k := by omega
    have hup : (2 : Int) - ((k + 1 + 1 : Nat) : Int) = -k := by omega
    rw [hdown, hup, powTwo_natCast, powTwo_neg_natCast, Nat.pow_succ, Nat.pow_succ]
    omega

theorem powTwo_pos (e : Int) :
  0 < powTwo e
  := Nat.pow_pos (by decide)

theorem quarters_intervalOf (hq : 0 < q) (p k : Nat) :
  4 * (intervalOf m q).quarters p k = k * 2 ^ q * powTwo (2 - (q : Int))
  := by
  have hplace : (intervalOf m q).quarters p k = k * powTwo ((q : Int) - 2) := by
    rw [Interval.quarters, powTen_neg_natCast, Nat.mul_one]
    rfl
  calc 4 * (intervalOf m q).quarters p k = k * (4 * powTwo ((q : Int) - 2)) := by
        rw [hplace]
        ring
    _ = k * 2 ^ q * powTwo (2 - (q : Int)) := by rw [powTwo_place hq, Nat.mul_assoc]

theorem gridPoint_intervalOf (p s : Nat) :
  (intervalOf m q).gridPoint p s = s * 10 ^ p * powTwo (2 - (q : Int))
  := rfl

theorem quarters_le_gridPoint_iff (hq : 0 < q) (p s k : Nat) :
  (intervalOf m q).quarters p k ≤ (intervalOf m q).gridPoint p s ↔ k * 2 ^ q ≤ 4 * (s * 10 ^ p)
  := by
  rw [← Nat.mul_le_mul_left_iff (by decide : 0 < 4), quarters_intervalOf hq, gridPoint_intervalOf,
    ← Nat.mul_assoc 4]
  exact Nat.mul_le_mul_right_iff (powTwo_pos _)

theorem gridPoint_le_quarters_iff (hq : 0 < q) (p s k : Nat) :
  (intervalOf m q).gridPoint p s ≤ (intervalOf m q).quarters p k ↔ 4 * (s * 10 ^ p) ≤ k * 2 ^ q
  := by
  rw [← Nat.mul_le_mul_left_iff (by decide : 0 < 4), quarters_intervalOf hq, gridPoint_intervalOf,
    ← Nat.mul_assoc 4]
  exact Nat.mul_le_mul_right_iff (powTwo_pos _)

/-- The interval holds the points of a grid that round to the integer. -/
theorem contains_intervalOf_iff (hq : 0 < q) (p s : Nat) :
  (intervalOf m q).contains p s = true ↔ Rounds m q (s * 10 ^ p)
  := by
  have hlow := quarters_le_gridPoint_iff (m := m) hq p s (lowEnd m)
  have hhigh := gridPoint_le_quarters_iff (m := m) hq p s (4 * m + 2)
  have hlow' := gridPoint_le_quarters_iff (m := m) hq p s (lowEnd m)
  have hhigh' := quarters_le_gridPoint_iff (m := m) hq p s (4 * m + 2)
  have hends : (intervalOf m q).low = lowEnd m ∧ (intervalOf m q).high = 4 * m + 2 := ⟨rfl, rfl⟩
  simp only [Interval.contains, hends]
  by_cases heven : m % 2 = 0
  · have hclosed : (intervalOf m q).closed = true := decide_eq_true heven
    rw [if_pos hclosed, Bool.and_eq_true, decide_eq_true_eq, decide_eq_true_eq, hlow, hhigh]
    constructor
    · intro h
      exact ⟨h.1, h.2, fun hodd => absurd heven hodd⟩
    · intro h
      exact ⟨h.low, h.high⟩
  · have hopen : ¬ (intervalOf m q).closed = true := mt of_decide_eq_true heven
    rw [if_neg hopen, Bool.and_eq_true, decide_eq_true_eq, decide_eq_true_eq, ← Nat.not_le,
      ← Nat.not_le, hlow', hhigh', Nat.not_le, Nat.not_le]
    constructor
    · intro h
      exact ⟨Nat.le_of_lt h.1, Nat.le_of_lt h.2, fun _ => h⟩
    · intro h
      exact h.strict heven

/-! ### Grids -/

/-- The point of a grid below an integer. -/
theorem floor_intervalOf (hq : 0 < q) (p : Nat) :
  (intervalOf m q).floor p = m * 2 ^ q / 10 ^ p
  := by
  have hquarters : (intervalOf m q).quarters p (4 * m) = m * 2 ^ q * powTwo (2 - (q : Int)) := by
    have := quarters_intervalOf (m := m) hq p (4 * m)
    rw [Nat.mul_assoc, Nat.mul_assoc] at this
    rw [Nat.mul_assoc]
    exact Nat.mul_left_cancel (by decide) this
  have hfloor : (intervalOf m q).floor p
      = (intervalOf m q).quarters p (4 * m) / (powTen p * powTwo (2 - (q : Int))) := rfl
  rw [hfloor, hquarters, powTen_natCast]
  exact Nat.mul_div_mul_right _ _ (powTwo_pos _)

/-- The point of a grid that is picked is one of two, and rounds to the integer. -/
theorem pick?_eq_some (hq : 0 < q) {p s : Nat} (h : (intervalOf m q).pick? p = some s) :
  Rounds m q (s * 10 ^ p) ∧ (s = m * 2 ^ q / 10 ^ p ∨ s = m * 2 ^ q / 10 ^ p + 1)
  := by
  rw [← contains_intervalOf_iff hq, ← floor_intervalOf hq]
  simp only [Interval.pick?] at h
  split at h
  · next hbelow habove =>
    split at h
    · cases h
      exact ⟨hbelow, .inl rfl⟩
    · split at h
      · cases h
        exact ⟨habove, .inr rfl⟩
      · split at h
        · cases h
          exact ⟨hbelow, .inl rfl⟩
        · cases h
          exact ⟨habove, .inr rfl⟩
  · next hbelow _ =>
    cases h
    exact ⟨hbelow, .inl rfl⟩
  · next _ habove =>
    cases h
    exact ⟨habove, .inr rfl⟩
  · cases h

/-- A point is picked if one of the two rounds to the integer. -/
theorem isSome_pick? (hq : 0 < q) {p s : Nat} (hround : Rounds m q (s * 10 ^ p))
    (hs : s = m * 2 ^ q / 10 ^ p ∨ s = m * 2 ^ q / 10 ^ p + 1) :
  ((intervalOf m q).pick? p).isSome = true
  := by
  rw [← contains_intervalOf_iff hq] at hround
  rw [← floor_intervalOf hq] at hs
  simp only [Interval.pick?]
  split
  · split
    · rfl
    · split
      · rfl
      · split <;> rfl
  · rfl
  · rfl
  · next hbelow habove =>
    rcases hs with rfl | rfl
    · rw [hround] at hbelow
      cases hbelow
    · rw [hround] at habove
      cases habove

/-- The integer itself is a point of the grid of the integers. -/
theorem isSome_pick?_zero (hn : Normal n m q) :
  ((intervalOf m q).pick? (0 : Nat)).isSome = true
  := by
  have hpos : 0 < 2 ^ q := by positivity
  apply isSome_pick? hn.pos (s := m * 2 ^ q)
  · rw [Nat.pow_zero, Nat.mul_one]
    apply rounds_of_ge hn.significand_pos (Nat.le_refl _)
    rw [highEnd_mul]
    omega
  · rw [Nat.pow_zero, Nat.div_one]
    exact .inl rfl

/-- With 17 digits one of the two points rounds to the integer: the grid is finer than the
interval. -/
theorem isSome_pick?_of_le (hn : Normal n m q) {p : Nat} (hp : 10 ^ p * 10 ^ 16 ≤ n) :
  ((intervalOf m q).pick? p).isSome = true
  := by
  have hbelow : m * 2 ^ q / 10 ^ p * 10 ^ p ≤ m * 2 ^ q := Nat.div_mul_le_self _ _
  have habove : m * 2 ^ q < (m * 2 ^ q / 10 ^ p + 1) * 10 ^ p :=
    (Nat.div_lt_iff_lt_mul (by positivity)).mp (Nat.lt_succ_self _)
  by_contra hnone
  have hlow : 4 * (m * 2 ^ q / 10 ^ p * 10 ^ p) ≤ lowEnd m * 2 ^ q := by
    by_contra hlt
    exact hnone (isSome_pick? hn.pos (rounds_of_le hbelow (Nat.not_le.mp hlt)) (.inl rfl))
  have hhigh : (4 * m + 2) * 2 ^ q ≤ 4 * ((m * 2 ^ q / 10 ^ p + 1) * 10 ^ p) := by
    by_contra hlt
    exact hnone (isSome_pick? hn.pos
      (rounds_of_ge hn.significand_pos (Nat.le_of_lt habove) (Nat.not_le.mp hlt)) (.inr rfl))
  have hm := hn.significand_pos
  -- so the two points are as far from each other as the ends of the interval
  have hnext : (m * 2 ^ q / 10 ^ p + 1) * 10 ^ p = m * 2 ^ q / 10 ^ p * 10 ^ p + 10 ^ p :=
    Nat.succ_mul _ _
  have hpos : 0 < 2 ^ q := by positivity
  have hends := highEnd_mul m (2 ^ q)
  rw [hn.eq] at hp
  by_cases hleast : m = 2 ^ 52
  · have hend : lowEnd m * 2 ^ q + 2 ^ q = 4 * (m * 2 ^ q) := by
      rw [lowEnd, if_pos hleast, ← Nat.succ_mul, Nat.succ_eq_add_one,
        Nat.sub_add_cancel (by omega), Nat.mul_assoc]
    have hsize : m * 2 ^ q = 2 ^ 52 * 2 ^ q := by rw [hleast]
    omega
  · have hend : lowEnd m * 2 ^ q + 2 * 2 ^ q = 4 * (m * 2 ^ q) := by
      rw [lowEnd, if_neg hleast, ← Nat.add_mul, Nat.sub_add_cancel (by omega), Nat.mul_assoc]
    have hsize : m * 2 ^ q ≤ 2 ^ 53 * 2 ^ q := Nat.mul_le_mul_right _ (Nat.le_of_lt hn.high)
    omega

/-! ### Digits -/

/-- A positive integer lies between the powers of ten that its number of digits gives. -/
theorem pow_length_toDigits (hpos : 0 < n) :
  10 ^ ((Nat.toDigits 10 n).length - 1) ≤ n ∧ n < 10 ^ (Nat.toDigits 10 n).length
  := by
  have hlength : 0 < (Nat.toDigits 10 n).length := Nat.length_toDigits_pos
  constructor
  · by_contra hlt
    rcases Nat.eq_zero_or_pos ((Nat.toDigits 10 n).length - 1) with hzero | hless
    · rw [hzero, Nat.pow_zero] at hlt
      omega
    · have := (Nat.length_toDigits_le_iff (by decide) hless).mpr (Nat.not_le.mp hlt)
      omega
  · apply (Nat.length_toDigits_le_iff (by decide) hlength).mp
    apply Nat.le_refl

/-- The number of places of a positive integer. -/
theorem places_one (hpos : 0 < n) :
  places n 1 = (Nat.toDigits 10 n).length
  := by
  have hlength : 0 < (Nat.toDigits 10 n).length := Nat.length_toDigits_pos
  have hone : (Nat.toDigits 10 1).length = 1 := rfl
  have hcast : ((Nat.toDigits 10 n).length : Int) - (1 : Nat)
      = ((Nat.toDigits 10 n).length - 1 : Nat) := by omega
  simp only [places, hone]
  rw [if_pos]
  · omega
  · rw [hcast, powTen_natCast, powTen_neg_natCast, Nat.one_mul, Nat.mul_one]
    exact (pow_length_toDigits hpos).1

/-- The first result of a function on the numbers below a bound comes no later than any other. -/
theorem exists_findSome?_range {α : Type} {f : Nat → Option α} {bound k : Nat} (hk : k < bound)
    (h : (f k).isSome = true) :
  ∃ j a, j ≤ k ∧ f j = some a ∧ (List.range bound).findSome? f = some a
  := by
  have hsome : ((List.range bound).findSome? f).isSome = true := by
    rw [List.findSome?_isSome_iff]
    exact ⟨k, List.mem_range.mpr hk, h⟩
  obtain ⟨a, ha⟩ := Option.isSome_iff_exists.mp hsome
  obtain ⟨before, j, after, hsplit, hj, hnone⟩ := List.findSome?_eq_some_iff.mp ha
  rw [List.range_eq_range', List.range'_eq_append_iff] at hsplit
  obtain ⟨i, -, rfl, hafter⟩ := hsplit
  obtain ⟨hji, -, -⟩ := List.range'_eq_cons_iff.mp hafter.symm
  refine ⟨j, a, ?_, hj, ha⟩
  by_contra hlt
  have hmem : k ∈ List.range' 0 i := List.mem_range'_1.mpr (by omega)
  rw [hnone k hmem] at h
  cases h

/-- Some grid of at most 17 digits, no finer than the integers, has a point that is picked. -/
theorem exists_isSome_pick? (hn : Normal n m q) :
  ∃ k < 17, k < (Nat.toDigits 10 n).length
    ∧ ((intervalOf m q).pick? ((Nat.toDigits 10 n).length - (k + 1) : Nat)).isSome = true
  := by
  obtain ⟨hlow, -⟩ := pow_length_toDigits hn.zero_lt
  have hlength : 0 < (Nat.toDigits 10 n).length := Nat.length_toDigits_pos
  generalize (Nat.toDigits 10 n).length = count at hlow hlength ⊢
  by_cases hle : count ≤ 17
  · refine ⟨count - 1, by omega, by omega, ?_⟩
    have hzero : count - (count - 1 + 1) = 0 := by omega
    rw [hzero]
    exact isSome_pick?_zero hn
  · refine ⟨16, by decide, by omega, ?_⟩
    apply isSome_pick?_of_le hn
    have hexponent : count - (16 + 1) + 16 = count - 1 := by omega
    rw [← Nat.pow_add, hexponent]
    exact hlow

/-- An integer of more than 53 bits is written by a number that rounds to it on a grid no finer
than the integers and no coarser than its first digit, next to the integer. -/
theorem exists_shortest (hn : Normal n m q) :
  ∃ s p : Nat, shortest n 1 = (s, (p : Int)) ∧ Rounds m q (s * 10 ^ p)
    ∧ (s = n / 10 ^ p ∨ s = n / 10 ^ p + 1) ∧ p < (Nat.toDigits 10 n).length
  := by
  obtain ⟨k, hk, hkc, hpick⟩ := exists_isSome_pick? hn
  have hplaces := places_one hn.zero_lt
  generalize (Nat.toDigits 10 n).length = count at hkc hpick hplaces ⊢
  have hgrid (j : Nat) (hj : j < count) : (count : Int) - (j + 1) = (count - (j + 1) : Nat) := by
    omega
  have hfirst : (Option.map (fun s => (s, (count : Int) - (k + 1)))
      ((intervalOf m q).pick? (count - (k + 1)))).isSome = true := by
    rw [Option.isSome_map, hgrid k hkc]
    exact hpick
  obtain ⟨j, ⟨s, p⟩, hjk, hj, hfound⟩ := exists_findSome?_range
    (f := fun k : Nat => ((intervalOf m q).pick? (count - (k + 1))).map
      fun s => (s, (count : Int) - (k + 1))) hk hfirst
  obtain ⟨s', hs, heq⟩ := Option.map_eq_some_iff.mp hj
  cases heq
  rw [hgrid j (by omega)] at hs
  obtain ⟨hround, hnext⟩ := pick?_eq_some hn.pos hs
  refine ⟨s, count - (j + 1), ?_, hround, ?_, by omega⟩
  · rw [← hgrid j (by omega)]
    simp only [shortest, hn.interval, hplaces, hfound, Option.getD_some]
  · rw [hn.eq]
    exact hnext

/-! ### The integer that is shown -/

/-- The integer that the text of a natural number shows: up to `2 ^ 53` the number itself, and
after it the shortest decimal. -/
def shown (n : Nat) : Nat :=
  if n ≤ 2 ^ 53 then n else (shortest n 1).1 * 10 ^ (shortest n 1).2.toNat

theorem shown_of_le (h : n ≤ 2 ^ 53) :
  shown n = n
  := if_pos h

variable (h53 : Has53Bits n)

include h53 in
/-- What is shown for an integer after `2 ^ 53` rounds to it, and lies between the powers of ten
around it. -/
theorem exists_shown (h : 2 ^ 53 < n) :
  ∃ m q s p : Nat, Normal n m q ∧ shortest n 1 = (s, (p : Int)) ∧ shown n = s * 10 ^ p
    ∧ Rounds m q (shown n) ∧ 10 ^ ((Nat.toDigits 10 n).length - 1) ≤ shown n
    ∧ shown n ≤ 10 ^ (Nat.toDigits 10 n).length
  := by
  obtain ⟨m, q, hn⟩ := exists_normal h53 h
  obtain ⟨s, p, hshortest, hround, hs, hp⟩ := exists_shortest hn
  obtain ⟨hlow, hhigh⟩ := pow_length_toDigits hn.zero_lt
  have hshown : shown n = s * 10 ^ p := by
    rw [shown, if_neg (Nat.not_le.mpr h), hshortest, Int.toNat_natCast]
  generalize (Nat.toDigits 10 n).length = count at hlow hhigh hp ⊢
  refine ⟨m, q, s, p, hn, hshortest, hshown, ?_, ?_, ?_⟩
  · rw [hshown]
    exact hround
  · have hsplit : 10 ^ (count - 1) = 10 ^ (count - 1 - p) * 10 ^ p := by
      rw [← Nat.pow_add]
      congr 1
      omega
    have hfloor : 10 ^ (count - 1 - p) ≤ n / 10 ^ p := by
      apply (Nat.le_div_iff_mul_le (by positivity)).mpr
      rw [← hsplit]
      exact hlow
    rw [hshown, hsplit]
    apply Nat.mul_le_mul_right
    omega
  · have hsplit : 10 ^ count = 10 ^ (count - p) * 10 ^ p := by
      rw [← Nat.pow_add]
      congr 1
      omega
    have hfloor : n / 10 ^ p < 10 ^ (count - p) := by
      apply (Nat.div_lt_iff_lt_mul (by positivity)).mpr
      rw [← hsplit]
      exact hhigh
    rw [hshown, hsplit]
    apply Nat.mul_le_mul_right
    omega

include h53 in
theorem lt_shown (h : 2 ^ 53 < n) :
  2 ^ 53 < shown n
  := by
  obtain ⟨m, q, s, p, hn, -, -, hround, -, -⟩ := exists_shown h53 h
  have hlow := hround.low
  have hends := lowEnd_mul hn.significand_pos (2 ^ q)
  have hsize : 2 ^ 52 * 2 ^ q ≤ n := by
    rw [hn.eq]
    exact Nat.mul_le_mul_right _ hn.low
  rw [← hn.eq] at hends
  obtain ⟨k, rfl⟩ : ∃ k, q = k + 1 := ⟨q - 1, (Nat.sub_add_cancel hn.pos).symm⟩
  cases k with
  | zero =>
    have heven : n = m * 2 := hn.eq
    omega
  | succ k =>
    have hpos : 0 < 2 ^ k := by positivity
    rw [Nat.pow_succ, Nat.pow_succ] at hlow hends hsize
    omega

/-- No integer below the first that is written with an exponent rounds up to it. -/
theorem Rounds.ne_exponent (hn : Normal n m q) (h : n < 10 ^ 21) :
  ¬ Rounds m q (10 ^ 21)
  := by
  intro hround
  have hq : q ≤ 17 := by
    by_contra hlt
    have hpow : 2 ^ 18 ≤ 2 ^ q := Nat.pow_le_pow_right (by decide) (by omega)
    have hsize : 2 ^ 52 * 2 ^ 18 ≤ n := by
      rw [hn.eq]
      exact Nat.mul_le_mul hn.low hpow
    omega
  -- both are multiples of the last place, and so differ by more than half of it
  obtain ⟨c, hc⟩ : 2 ^ q ∣ 10 ^ 21 :=
    Nat.dvd_trans (Nat.pow_dvd_pow 2 (by omega : q ≤ 21))
      (pow_dvd_pow_of_dvd (by decide : 2 ∣ 10) 21)
  have hlt : m < c := by
    apply Nat.lt_of_mul_lt_mul_right (a := 2 ^ q)
    rw [← hn.eq, Nat.mul_comm c, ← hc]
    exact h
  have hhigh := hround.high
  rw [hc, Nat.mul_comm (2 ^ q), ← Nat.mul_assoc] at hhigh
  have := Nat.le_of_mul_le_mul_right hhigh (by positivity)
  omega

include h53 in
/-- What is shown is below the first integer that is written with an exponent if the integer is. -/
theorem shown_lt_iff :
  shown n < 10 ^ 21 ↔ n < 10 ^ 21
  := by
  by_cases h : n ≤ 2 ^ 53
  · rw [shown_of_le h]
  · obtain ⟨m, q, s, p, hn, -, -, hround, hlow, hhigh⟩ := exists_shown h53 (Nat.not_le.mp h)
    have hlength : 0 < (Nat.toDigits 10 n).length := Nat.length_toDigits_pos
    have hcount (k : Nat) (hk : 0 < k) : (Nat.toDigits 10 n).length ≤ k ↔ n < 10 ^ k :=
      Nat.length_toDigits_le_iff (by decide) hk
    constructor
    · intro hlt
      apply (hcount 21 (by decide)).mp
      by_contra hgt
      have : 10 ^ 21 ≤ 10 ^ ((Nat.toDigits 10 n).length - 1) :=
        Nat.pow_le_pow_right (by decide) (by omega)
      omega
    · intro hlt
      have hle : shown n ≤ 10 ^ 21 := Nat.le_trans hhigh
        (Nat.pow_le_pow_right (by decide) ((hcount 21 (by decide)).mpr hlt))
      apply Nat.lt_of_le_of_ne hle
      intro heq
      rw [heq] at hround
      exact Rounds.ne_exponent hn hlt hround

/-- Different integers are shown differently. -/
theorem shown_injOn {n' : Nat} (h53 : Has53Bits n) (h53' : Has53Bits n') (h : n < 10 ^ 21)
    (h' : n' < 10 ^ 21) (heq : shown n = shown n') :
  n = n'
  := by
  have hread {n : Nat} (h53 : Has53Bits n) (h : n < 10 ^ 21) (hgt : 2 ^ 53 < n) :
      nearest (shown n) 1 = int n := by
    obtain ⟨m, q, s, p, hn, -, -, hround, -⟩ := exists_shown h53 hgt
    exact hround.nearest hn (lt_firstInfinite h)
  by_cases hle : n ≤ 2 ^ 53
  · by_cases hle' : n' ≤ 2 ^ 53
    · rw [shown_of_le hle, shown_of_le hle'] at heq
      exact heq
    · have := lt_shown h53' (Nat.not_le.mp hle')
      rw [shown_of_le hle] at heq
      omega
  · have hlt := lt_shown h53 (Nat.not_le.mp hle)
    by_cases hle' : n' ≤ 2 ^ 53
    · rw [shown_of_le hle'] at heq
      omega
    · have hnearest := hread h53 h (Nat.not_le.mp hle)
      rw [heq, hread h53' h' (Nat.not_le.mp hle')] at hnearest
      injection hnearest with hint
      exact (Int.ofNat.inj hint).symm

end Number

end StackMachine
