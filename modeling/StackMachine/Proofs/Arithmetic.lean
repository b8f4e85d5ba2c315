import StackMachine.Proofs.Word

/-!
# Arithmetic of words

An operator of arithmetic gives the exact result if it is a word, and overflows otherwise.  Division
and remainder fault for the same operands and fit together otherwise.  A comparison or a connective
tells whether a relation holds, by the words 1 and 0, and only 1 is true to a connective.
-/

namespace StackMachine

/-- The relation of which an operator tells whether it holds; arithmetic tells of none. -/
def BinaryOperator.relation? : BinaryOperator → Option (Int → Int → Prop)
  | add | sub | mul | div | mod => none
  | and => some fun a b => a = 1 ∧ b = 1
  | or => some fun a b => a = 1 ∨ b = 1
  | eq => some fun a b => a = b
  | neq => some fun a b => a ≠ b
  | lt => some fun a b => a < b
  | le => some fun a b => a ≤ b
  | gt => some fun a b => b < a
  | ge => some fun a b => b ≤ a

namespace Word

/-- A result is a fault with a code. -/
def FaultsWith (result : Except Fault Int) (c : FaultCode) : Prop :=
  ∃ fault, result = .error fault ∧ fault.code = c

/-- A result is a number if that is a word, and an overflow otherwise. -/
structure IsExactly (result : Except Fault Int) (n : Int) : Prop where
  word : IsWord n → result = .ok n
  overflow : ¬ IsWord n → FaultsWith result .overflow

theorem faultsWith_error {fault : Fault} {c : FaultCode} :
  FaultsWith (.error fault) c ↔ fault.code = c
  := by
  constructor
  · rintro ⟨fault, ⟨⟩, h⟩
    exact h
  · intro h
    exact ⟨fault, rfl, h⟩

theorem not_faultsWith_ok (w : Int) (c : FaultCode) :
  ¬ FaultsWith (.ok w) c
  := by
  rintro ⟨fault, ⟨⟩, -⟩

theorem isExactly_checked (op : BinaryOperator ⊕ UnaryOperator) (n : Int) :
  IsExactly (checked op n) n
  := by
  constructor
  · intro hn
    rw [checked, if_pos hn]
  · intro hn
    rw [checked, if_neg hn]
    exact faultsWith_error.mpr rfl

/-! ### Division -/

/-- The one quotient of words that is no word is that of the least word by -1. -/
theorem isWord_tdiv_iff {a : Int} (ha : IsWord a) (b : Int) :
  IsWord (a.tdiv b) ↔ ¬ (a = least ∧ b = -1)
  := by
  constructor
  · rintro hq ⟨rfl, rfl⟩
    revert hq
    decide
  · intro hne
    obtain ⟨hleast, hgreatest⟩ := ha
    rw [least] at hleast hne
    rw [greatest] at hgreatest
    rw [IsWord, least, greatest]
    by_cases hb : b.natAbs = 1
    · rcases Int.natAbs_eq_iff.mp hb with rfl | rfl
      · rw [Int.natCast_one, Int.tdiv_one]
        omega
      · rw [Int.natCast_one] at hne ⊢
        rw [Int.tdiv_neg, Int.tdiv_one]
        omega
    · -- the divisor is 0, or the quotient is at most half as far from 0 as the dividend
      have hhalf : (a.tdiv b).natAbs ≤ a.natAbs / 2 := by
        rcases Nat.eq_zero_or_pos b.natAbs with hzero | hpos
        · rw [Int.natAbs_eq_zero.mp hzero, Int.tdiv_zero]
          apply Nat.zero_le
        · rw [Int.natAbs_tdiv]
          apply Nat.div_le_div_left _ Nat.two_pos
          omega
      omega

/-- The result of a division of two numbers: a fault if they have no quotient, another one if that
is no word, and otherwise a number. -/
def divided (a b : Int) (zero overflow : Fault) (n : Int) : Except Fault Int :=
  if b = 0 then .error zero else if a = least ∧ b = -1 then .error overflow else .ok n

/-- What is known of the result of a division of two numbers. -/
structure IsDivided (a b : Int) (result : Except Fault Int) (n : Int) : Prop where
  zero_iff : FaultsWith result .divZero ↔ b = 0
  overflow_iff : FaultsWith result .overflow ↔ a = least ∧ b = -1
  number : b ≠ 0 → ¬ (a = least ∧ b = -1) → result = .ok n

theorem isDivided_divided (a b n : Int) {zero overflow : Fault} (hzero : zero.code = .divZero)
    (hoverflow : overflow.code = .overflow) :
  IsDivided a b (divided a b zero overflow n) n
  := by
  by_cases hb : b = 0
  · have hne : ¬ (a = least ∧ b = -1) := by
      rw [hb]
      rintro ⟨-, ⟨⟩⟩
    rw [divided, if_pos hb]
    constructor
    · rw [faultsWith_error]
      exact iff_of_true hzero hb
    · rw [faultsWith_error, hzero]
      exact iff_of_false nofun hne
    · intro hb'
      cases hb' hb
  · rw [divided, if_neg hb]
    by_cases hleast : a = least ∧ b = -1
    · rw [if_pos hleast]
      constructor
      · rw [faultsWith_error, hoverflow]
        exact iff_of_false nofun hb
      · rw [faultsWith_error]
        exact iff_of_true hoverflow hleast
      · intro _ hne
        cases hne hleast
    · rw [if_neg hleast]
      constructor
      · exact iff_of_false (not_faultsWith_ok n _) hb
      · exact iff_of_false (not_faultsWith_ok n _) hleast
      · intro _ _
        rfl

/-- Division tests its result where the remainder tests the operands, which comes to the same. -/
theorem isDivided_div {a : Int} (ha : IsWord a) (b : Int) :
  IsDivided a b (BinaryOperator.div.apply a b) (a.tdiv b)
  := by
  have hdivided : BinaryOperator.div.apply a b
      = divided a b .divisionByZero (.overflow (.inl .div)) (a.tdiv b) := by
    rw [BinaryOperator.apply, divided, checked]
    simp only [isWord_tdiv_iff ha, ite_not]
  rw [hdivided]
  exact isDivided_divided a b _ rfl rfl

theorem isDivided_mod (a b : Int) :
  IsDivided a b (BinaryOperator.mod.apply a b) (a.tmod b)
  := isDivided_divided a b _ rfl rfl

/-- The remainder is nearer to 0 than the divisor, and 0 or on the side of the dividend. -/
theorem tmod_near (a : Int) {b : Int} (hb : b ≠ 0) :
  (a.tmod b).natAbs < b.natAbs ∧ (a.tmod b = 0 ∨ (a.tmod b).sign = a.sign)
  := by
  constructor
  · rw [Int.natAbs_tmod]
    apply Nat.mod_lt _ (Int.natAbs_pos.mpr hb)
  · by_cases hdvd : b ∣ a
    · left
      apply Int.tmod_eq_zero_of_dvd hdvd
    · right
      rw [Int.sign_tmod, if_neg hdvd]

/-! ### Truth values -/

/-- The word of a truth value that stands for a proposition. -/
theorem ok_ofBool {p : Prop} {b : Bool} (h : b = true ↔ p) :
  p ∧ (.ok (ofBool b) : Except Fault Int) = .ok 1
    ∨ ¬ p ∧ (.ok (ofBool b) : Except Fault Int) = .ok 0
  := by
  rw [← h]
  cases b with
  | true => exact .inl ⟨rfl, rfl⟩
  | false => exact .inr ⟨Bool.false_ne_true, rfl⟩

/-- A comparison or a connective gives 1 if its relation holds, and 0 if it does not. -/
theorem apply_of_relation {op : BinaryOperator} {R : Int → Int → Prop}
    (h : op.relation? = some R) (a b : Int) :
  R a b ∧ op.apply a b = .ok 1 ∨ ¬ R a b ∧ op.apply a b = .ok 0
  := by
  cases op with
  | add | sub | mul | div | mod => cases h
  | and | or =>
    cases h
    apply ok_ofBool
    simp [isTrue]
  | eq | neq | lt | le | gt | ge =>
    cases h
    apply ok_ofBool
    apply decide_eq_true_iff

theorem isTrue_ofBool (b : Bool) :
  isTrue (ofBool b) = b
  := by
  cases b <;> rfl

/-- Negation gives 0 for the one word that is true, and 1 for every other. -/
theorem not_apply (a : Int) :
  a = 1 ∧ UnaryOperator.not.apply a = .ok 0 ∨ a ≠ 1 ∧ UnaryOperator.not.apply a = .ok 1
  := by
  have hnot : (!isTrue a) = true ↔ a ≠ 1 := by simp [isTrue]
  rcases ok_ofBool hnot with ⟨ha, h⟩ | ⟨ha, h⟩
  · exact .inr ⟨ha, h⟩
  · exact .inl ⟨not_not.mp ha, h⟩

/-- Of a comparison and its opposite one gives 1 and the other 0, and `le` gives what `lt` and `eq`
give together. -/
theorem exists_comparisons (a b : Int) :
  ∃ v : BinaryOperator → Int,
    (∀ op : BinaryOperator, op.relation?.isSome → op.apply a b = .ok (v op))
    ∧ v .lt + v .ge = 1 ∧ v .le + v .gt = 1 ∧ v .eq + v .neq = 1 ∧ v .lt + v .eq = v .le
  := by
  use fun op => (op.apply a b).toOption.getD 0
  constructor
  · intro op hop
    obtain ⟨R, hR⟩ := Option.isSome_iff_exists.mp hop
    rcases apply_of_relation hR a b with ⟨-, h⟩ | ⟨-, h⟩ <;> rw [h] <;> rfl
  · simp only [BinaryOperator.apply, Except.toOption, Option.getD_some, ofBool, decide_eq_true_iff]
    omega

/-! ### The laws -/

/-- What the operators make of two numbers. -/
structure Laws (a b : Int) : Prop where
  /-- There is a word, or a fault. -/
  binary : ∀ op : BinaryOperator,
    (∃ w, op.apply a b = .ok w ∧ IsWord w) ∨ ∃ fault, op.apply a b = .error fault
  unary : ∀ op : UnaryOperator,
    (∃ w, op.apply a = .ok w ∧ IsWord w) ∨ ∃ fault, op.apply a = .error fault
  add : IsExactly (BinaryOperator.add.apply a b) (a + b)
  sub : IsExactly (BinaryOperator.sub.apply a b) (a - b)
  mul : IsExactly (BinaryOperator.mul.apply a b) (a * b)
  neg : IsExactly (UnaryOperator.neg.apply a) (-a)
  /-- A quotient and its remainder fit together. -/
  division : ∃ q r, IsDivided a b (BinaryOperator.div.apply a b) q
    ∧ IsDivided a b (BinaryOperator.mod.apply a b) r
    ∧ (b ≠ 0 → a = b * q + r ∧ r.natAbs < b.natAbs ∧ (r = 0 ∨ r.sign = a.sign))
  /-- Comparisons and connectives tell whether their relation holds. -/
  relation : ∀ (op : BinaryOperator) R, op.relation? = some R →
    R a b ∧ op.apply a b = .ok 1 ∨ ¬ R a b ∧ op.apply a b = .ok 0
  not : a = 1 ∧ UnaryOperator.not.apply a = .ok 0 ∨ a ≠ 1 ∧ UnaryOperator.not.apply a = .ok 1
  comparisons : ∃ v : BinaryOperator → Int,
    (∀ op : BinaryOperator, op.relation?.isSome → op.apply a b = .ok (v op))
    ∧ v .lt + v .ge = 1 ∧ v .le + v .gt = 1 ∧ v .eq + v .neq = 1 ∧ v .lt + v .eq = v .le
  /-- The negation of a connective is the other one of the negations. -/
  not_and : (do UnaryOperator.not.apply (← BinaryOperator.and.apply a b))
    = do BinaryOperator.or.apply (← UnaryOperator.not.apply a) (← UnaryOperator.not.apply b)
  not_or : (do UnaryOperator.not.apply (← BinaryOperator.or.apply a b))
    = do BinaryOperator.and.apply (← UnaryOperator.not.apply a) (← UnaryOperator.not.apply b)

/-- The operators obey their laws at two words, and where only the first number is one. -/
theorem arithmetic_laws {a : Int} (ha : IsWord a) (b : Int) :
  Laws a b
  := by
  constructor
  · intro op
    cases h : op.apply a b with
    | ok w => exact .inl ⟨w, rfl, BinaryOperator.isWord_apply ha h⟩
    | error fault => exact .inr ⟨fault, rfl⟩
  · intro op
    cases h : op.apply a with
    | ok w => exact .inl ⟨w, rfl, UnaryOperator.isWord_apply h⟩
    | error fault => exact .inr ⟨fault, rfl⟩
  · apply isExactly_checked
  · apply isExactly_checked
  · apply isExactly_checked
  · apply isExactly_checked
  · refine ⟨_, _, isDivided_div ha b, isDivided_mod a b, ?_⟩
    intro hb
    exact ⟨(Int.mul_tdiv_add_tmod a b).symm, tmod_near a hb⟩
  · intro op R hR
    apply apply_of_relation hR
  · apply not_apply
  · apply exists_comparisons
  · change Except.ok _ = Except.ok _
    rw [isTrue_ofBool, isTrue_ofBool, isTrue_ofBool, Bool.not_and]
  · change Except.ok _ = Except.ok _
    rw [isTrue_ofBool, isTrue_ofBool, isTrue_ofBool, Bool.not_or]

/-- The least word has no quotient by -1 that is a word, and so neither a remainder nor a
negative. -/
theorem arithmetic_laws_least :
  IsWord least ∧ FaultsWith (BinaryOperator.div.apply least (-1)) .overflow
    ∧ FaultsWith (BinaryOperator.mod.apply least (-1)) .overflow
    ∧ FaultsWith (UnaryOperator.neg.apply least) .overflow
    ∧ BinaryOperator.lt.apply least (-1) = .ok 1
  := by
  have hleast : IsWord least := by decide
  have hlaws := arithmetic_laws hleast (-1)
  obtain ⟨q, r, hdiv, hmod, -⟩ := hlaws.division
  refine ⟨hleast, hdiv.overflow_iff.mpr ⟨rfl, rfl⟩, hmod.overflow_iff.mpr ⟨rfl, rfl⟩,
    hlaws.neg.overflow (by decide), ?_⟩
  rcases hlaws.relation .lt _ rfl with ⟨-, h⟩ | ⟨h, -⟩
  · exact h
  · cases h (by decide)

end Word

end StackMachine
