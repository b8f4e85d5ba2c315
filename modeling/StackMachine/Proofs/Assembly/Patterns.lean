import StackMachine.Proofs.Assembly.Lexing
import StackMachine.Text.Collation

/-!
# Patterns

What stands at a place of a text can also be told by a table of patterns that are tried one after
another.  Each mnemonic has a pattern of its own there, which also matches the beginning of longer
words, so that longer mnemonics have to come first and the whole word has to be looked at before a
mnemonic is taken.  The table tells the same as the functions by which texts are scanned.
-/

namespace StackMachine

namespace Assembly

/-- A pattern of units. -/
inductive Pattern where
  /-- No unit at all. -/
  | nothing
  /-- One unit of a class. -/
  | unit (P : CodeUnit → Bool)
  /-- As many units of a class as there are, or fewer if the rest matches only then. -/
  | many (P : CodeUnit → Bool)
  /-- One pattern and behind it another. -/
  | seq (X Y : Pattern)
  /-- One pattern, or another if the rest matches only then. -/
  | either (X Y : Pattern)
  /-- The next unit is not of a class; it is not taken. -/
  | notBefore (P : CodeUnit → Bool)

namespace Pattern

/-- How many units at the head of a text a pattern can take, in the order in which it is tried. -/
def lengths : Pattern → Text → List Nat
  | nothing, _ => [0]
  | unit P, s => if s.head?.any P then [1] else []
  | many P, s => (List.range ((s.takeWhile P).length + 1)).reverse
  | seq X Y, s => (X.lengths s).flatMap fun n => (Y.lengths (s.drop n)).map (n + ·)
  | either X Y, s => X.lengths s ++ Y.lengths s
  | notBefore P, s => if s.head?.any P then [] else [0]

/-- How many units at the head of a text a pattern takes. -/
def length? (X : Pattern) (s : Text) : Option Nat := (X.lengths s).head?

/-- One unit. -/
def exactly (u : CodeUnit) : Pattern := unit (· == u)

/-- The units of a text. -/
def literal : Text → Pattern
  | [] => nothing
  | u :: w => seq (exactly u) (literal w)

/-- A unit of a class and then units of another. -/
def run (P Q : CodeUnit → Bool) : Pattern := seq (unit P) (many Q)

/-- A pattern, if it is there. -/
def optional (X : Pattern) : Pattern := either X nothing

/-- A run of digits without a leading zero that is not followed by a part of a word. -/
def natural : Pattern :=
  seq (either (exactly (CodeUnit.ofChar '0'))
    (run (fun u => u.isDigit && u != CodeUnit.ofChar '0') CodeUnit.isDigit))
    (notBefore CodeUnit.isWordPart)

/-- An integer, which may have a sign. -/
def integer : Pattern := seq (optional (exactly (CodeUnit.ofChar '-'))) natural

/-- A line feed, before which a carriage return may stand. -/
def lineEnd : Pattern :=
  seq (optional (exactly Text.carriageReturn)) (exactly Text.lineFeed)

/-- A word. -/
def word : Pattern := run CodeUnit.isWordStart CodeUnit.isWordPart

/-! ### What patterns take -/

theorem lengths_nothing (s : Text) :
  nothing.lengths s = [0]
  := rfl

theorem lengths_unit (P : CodeUnit → Bool) (u : CodeUnit) (r : Text) :
  (unit P).lengths (u :: r) = if P u then [1] else []
  := rfl

theorem lengths_many (P : CodeUnit → Bool) (s : Text) :
  (many P).lengths s = (List.range ((s.takeWhile P).length + 1)).reverse
  := rfl

theorem lengths_seq (X Y : Pattern) (s : Text) :
  (seq X Y).lengths s = (X.lengths s).flatMap fun n => (Y.lengths (s.drop n)).map (n + ·)
  := rfl

theorem lengths_either (X Y : Pattern) (s : Text) :
  (either X Y).lengths s = X.lengths s ++ Y.lengths s
  := rfl

theorem lengths_notBefore (P : CodeUnit → Bool) (s : Text) :
  (notBefore P).lengths s = if s.head?.any P then [] else [0]
  := rfl

theorem lengths_exactly (u v : CodeUnit) (r : Text) :
  (exactly u).lengths (v :: r) = if v = u then [1] else []
  := by
  rw [exactly, lengths_unit]
  simp only [beq_iff_eq]

/-- A run takes first as much as it can. -/
theorem lengths_run (P Q : CodeUnit → Bool) (u : CodeUnit) (r : Text) :
  (run P Q).lengths (u :: r)
    = if P u then ((List.range ((r.takeWhile Q).length + 1)).reverse).map (1 + ·) else []
  := by
  rw [run, lengths_seq, lengths_unit]
  split
  · rw [List.flatMap_singleton, List.drop_one, List.tail_cons, lengths_many]
  · rfl

theorem length?_run (P Q : CodeUnit → Bool) (u : CodeUnit) (r : Text) :
  (run P Q).length? (u :: r) = if P u then some ((r.takeWhile Q).length + 1) else none
  := by
  rw [length?, lengths_run]
  split
  · rw [List.range_succ, List.reverse_append, List.reverse_singleton, List.singleton_append,
      List.map_cons, List.head?_cons, Nat.add_comm]
  · rfl

theorem lengths_literal (w s : Text) :
  (literal w).lengths s = if w <+: s then [w.length] else []
  := by
  induction w generalizing s with
  | nil => rw [if_pos (List.nil_prefix)]; rfl
  | cons u w ih =>
    cases s with
    | nil => rfl
    | cons v r =>
      rw [literal, lengths_seq, lengths_exactly]
      by_cases hu : v = u
      · subst hu
        rw [if_pos rfl, List.flatMap_singleton, List.drop_one, List.tail_cons, ih]
        simp only [List.cons_prefix_cons, true_and]
        split
        · rw [List.map_singleton, List.length_cons, Nat.add_comm]
        · rfl
      · rw [if_neg hu, if_neg]
        · rfl
        · intro h
          exact hu (List.cons_prefix_cons.mp h).1.symm

/-- A word matches at the head of the texts that go on from it, whatever they go on with. -/
theorem length?_literal (w s : Text) :
  (literal w).length? s = if w <+: s then some w.length else none
  := by
  rw [length?, lengths_literal]
  split <;> rfl

/-- A unit of a run of digits is a part of a word. -/
theorem isWordPart_head_drop {r : Text} {n : Nat} (h : n < (r.takeWhile CodeUnit.isDigit).length) :
  (r.drop n).head?.any CodeUnit.isWordPart = true
  := by
  have hget : r[n]? = some (r.takeWhile CodeUnit.isDigit)[n] := by
    conv_lhs => rw [← List.takeWhile_append_dropWhile (p := CodeUnit.isDigit) (l := r)]
    rw [List.getElem?_append_left h, List.getElem?_eq_getElem h]
  rw [List.head?_drop, hget]
  apply CodeUnit.isWordPart_of_isDigit
  apply List.mem_takeWhile_imp (List.getElem_mem h)

/-- Of a run of digits no digit is given back. -/
theorem flatMap_digits (r : Text) :
  (List.range ((r.takeWhile CodeUnit.isDigit).length + 1)).reverse.flatMap (fun n =>
      ((notBefore CodeUnit.isWordPart).lengths (r.drop n)).map (n + 1 + ·))
    = ((notBefore CodeUnit.isWordPart).lengths (r.drop (r.takeWhile CodeUnit.isDigit).length)).map
        ((r.takeWhile CodeUnit.isDigit).length + 1 + ·)
  := by
  rw [List.range_succ, List.reverse_append, List.reverse_singleton, List.singleton_append,
    List.flatMap_cons]
  apply List.append_right_eq_self.mpr
  apply List.flatMap_eq_nil_iff.mpr
  intro n hn
  have hlt := List.mem_range.mp (List.mem_reverse.mp hn)
  rw [lengths_notBefore, if_pos (isWordPart_head_drop hlt)]
  rfl

/-- The end of a run of digits decides whether it is an integer. -/
theorem map_lengths_notBefore (r : Text) (n : Nat) :
  ((notBefore CodeUnit.isWordPart).lengths (r.drop n)).map (n + 1 + ·)
    = (if (r.drop n).head?.any CodeUnit.isWordPart then none else some (n + 1)).toList
  := by
  rw [lengths_notBefore]
  split <;> rfl

/-- An integer without sign takes the digits that are told by themselves. -/
theorem lengths_natural (s : Text) :
  natural.lengths s = (Lexeme.unsigned? s).toList
  := by
  cases s with
  | nil => rfl
  | cons d r =>
    rw [natural, lengths_seq, lengths_either, lengths_exactly, lengths_run, Lexeme.unsigned?]
    by_cases hzero : d = CodeUnit.ofChar '0'
    · subst hzero
      rw [if_pos rfl, if_neg (by decide), if_pos (by decide), List.append_nil,
        List.flatMap_singleton]
      exact map_lengths_notBefore r 0
    · by_cases hd : d.isDigit = true
      · have hfirst : (d.isDigit && d != CodeUnit.ofChar '0') = true := by simp [hd, hzero]
        rw [if_neg hzero, if_pos hfirst, if_pos hd, List.nil_append, List.flatMap_map]
        simp only [Nat.add_comm 1, List.drop_succ_cons, if_neg hzero]
        rw [flatMap_digits, map_lengths_notBefore]
      · have hfirst : ¬ (d.isDigit && d != CodeUnit.ofChar '0') = true := by simp [hd]
        rw [if_neg hzero, if_neg hfirst, if_neg hd]
        rfl

theorem lengths_integer (u : CodeUnit) (r : Text) :
  integer.lengths (u :: r) = ((Lexeme.integer? u r).map (· + 1)).toList
  := by
  have hadd (n : Option Nat) (k : Nat) : n.toList.map (k + ·) = (n.map (k + ·)).toList := by
    cases n <;> rfl
  rw [integer, lengths_seq, optional, lengths_either, lengths_exactly, Lexeme.integer?,
    lengths_nothing]
  by_cases hu : u = CodeUnit.ofChar '-'
  · subst hu
    simp only [if_true, List.singleton_append, List.flatMap_cons, List.flatMap_nil,
      List.append_nil, List.drop_one, List.tail_cons, List.drop_zero, lengths_natural]
    have hnone : Lexeme.unsigned? (CodeUnit.ofChar '-' :: r) = none := rfl
    rw [hnone, hadd]
    simp [Nat.add_comm]
  · simp only [if_neg hu, List.nil_append, List.flatMap_cons, List.flatMap_nil,
      List.append_nil, List.drop_zero, lengths_natural, hadd]
    cases h : Lexeme.unsigned? (u :: r) with
    | none => rfl
    | some n =>
      have hpos : n ≠ 0 := by
        rintro rfl
        exact (Lexeme.isDigit_of_unsigned? h).1 List.take_zero
      simp only [Option.map_some, Option.toList_some, List.cons.injEq, and_true]
      omega

theorem length?_lineEnd (u : CodeUnit) (r : Text) :
  lineEnd.length? (u :: r)
    = if u = Text.lineFeed then some 1
      else if u = Text.carriageReturn ∧ r.head? = some Text.lineFeed then some 2
      else none
  := by
  rw [length?, lineEnd, lengths_seq, optional, lengths_either, lengths_exactly, lengths_nothing]
  by_cases hu : u = Text.carriageReturn
  · subst hu
    cases r with
    | nil => rfl
    | cons v r =>
      by_cases hv : v = Text.lineFeed
      · subst hv
        rfl
      · simp [lengths_exactly, hv, show Text.carriageReturn ≠ Text.lineFeed by decide]
  · rw [if_neg hu]
    by_cases hl : u = Text.lineFeed
    · subst hl
      rfl
    · simp [hu, hl, lengths_exactly]

end Pattern

/-! ### The table -/

/-- What a pattern stands for. -/
inductive Rule where
  /-- A pattern stands for something. -/
  | plain (X : Pattern) (x : Lexeme)
  /-- A pattern stands for something, unless another one takes more units. -/
  | unlessLonger (X : Pattern) (x : Lexeme) (Y : Pattern) (y : Lexeme)

namespace Rule

/-- What a rule finds at the head of a text, and how many units belong to it. -/
def take? : Rule → Text → Option (Lexeme × Nat)
  | plain X x, s => (X.length? s).map (x, ·)
  | unlessLonger X x Y y, s =>
    (X.length? s).map fun n =>
      match (Y.length? s).filter (n < ·) with
      | some m => (y, m)
      | none => (x, n)

/-- A mnemonic is taken unless it is only the beginning of a word. -/
def mnemonic (o : Opcode) : Rule :=
  unlessLonger (.literal o.mnemonic) (.token (.mnemonic o)) .word (.token .identifier)

/-- Every opcode, those with long mnemonics first. -/
def opcodes : List Opcode :=
  (Opcode.all.mergeSort fun a b => !Text.alphabetical b.mnemonic a.mnemonic).mergeSort
    fun a b => b.mnemonic.length ≤ a.mnemonic.length

/-- The rules of words, integers and colons, mnemonics before other words. -/
def ofPlain : List Rule :=
  opcodes.map mnemonic ++ [plain .integer (.token .integer), plain .word (.token .identifier),
    plain (.exactly (CodeUnit.ofChar ':')) (.token .colon)]

/-- The rules in the order in which they are tried. -/
def table : List Rule :=
  [plain (.run Lexeme.isBlank Lexeme.isBlank) .blank, plain .lineEnd (.token .newline),
    plain (.run (· == CodeUnit.ofChar '#') fun u => !Lexeme.isLineEnd u) .comment] ++ ofPlain

/-- What the first rule that finds something finds at the head of a text. -/
def first? (rules : List Rule) (s : Text) : Option (Lexeme × Nat) := rules.findSome? (·.take? s)

/-! ### Mnemonics and other words -/

theorem mem_opcodes (o : Opcode) :
  o ∈ opcodes
  := by
  apply List.mem_mergeSort.mpr
  apply List.mem_mergeSort.mpr
  exact List.mem_of_find?_eq_some (Opcode.ofMnemonic?_mnemonic o)

theorem pairwise_opcodes :
  opcodes.Pairwise fun a b => b.mnemonic.length ≤ a.mnemonic.length
  := by
  apply (List.pairwise_mergeSort _ _ _).imp
  · intro a b h
    exact of_decide_eq_true h
  · intro a b c hab hbc
    have := of_decide_eq_true hab
    have := of_decide_eq_true hbc
    apply decide_eq_true
    omega
  · intro a b
    rw [Bool.or_eq_true, decide_eq_true_iff, decide_eq_true_iff]
    apply Nat.le_total

section

variable {w rest : Text} (hw : w.IsWord) (hrest : Text.Stops CodeUnit.isWordPart rest)

include hw hrest

/-- At the head of a text a word is taken as a whole. -/
theorem length?_word :
  Pattern.word.length? (w ++ rest) = some w.length
  := by
  cases w with
  | nil => cases hw
  | cons u v =>
    obtain ⟨hu, hv⟩ := hw
    rw [List.cons_append, Pattern.word, Pattern.length?_run, if_pos hu,
      Text.takeWhile_append hv hrest]
    rfl

/-- The mnemonic of an opcode matches at a word that begins with it, but is taken only if it is the
whole word. -/
theorem take?_mnemonic (o : Opcode) :
  (mnemonic o).take? (w ++ rest)
    = if o.mnemonic <+: w then
        some (.token (if w = o.mnemonic then .mnemonic o else .identifier), w.length)
      else none
  := by
  have hbegins : o.mnemonic <+: w ++ rest ↔ o.mnemonic <+: w := by
    constructor
    · rintro ⟨t, ht⟩
      have htake := congrArg (List.takeWhile CodeUnit.isWordPart) ht
      rw [Text.takeWhile_append hw.isWordPart hrest,
        List.takeWhile_append_of_pos o.isWord_mnemonic.isWordPart] at htake
      exact ⟨_, htake⟩
    · intro h
      exact h.trans (List.prefix_append w rest)
  rw [mnemonic, take?, Pattern.length?_literal, length?_word hw hrest]
  by_cases h : o.mnemonic <+: w
  · rw [if_pos h, if_pos (hbegins.mpr h), Option.map_some]
    by_cases heq : w = o.mnemonic
    · subst heq
      simp [Option.filter_some]
    · have hlt : o.mnemonic.length < w.length := by
        by_contra hle
        exact heq (h.eq_of_length_le (Nat.not_lt.mp hle)).symm
      simp [Option.filter_some, hlt, heq]
  · rw [if_neg h, if_neg fun h' => h (hbegins.mp h')]
    rfl

/-- The first mnemonic that matches at the word of an opcode is its own, since no longer one does. -/
theorem findSome?_mnemonic {os : List Opcode} {o : Opcode}
    (hos : os.Pairwise fun a b => b.mnemonic.length ≤ a.mnemonic.length) (ho : o ∈ os)
    (hwo : w = o.mnemonic) :
  (os.map mnemonic).findSome? (·.take? (w ++ rest)) = some (.token (.mnemonic o), w.length)
  := by
  induction os with
  | nil => cases ho
  | cons a os ih =>
    obtain ⟨ha, hos⟩ := List.pairwise_cons.mp hos
    rw [List.map_cons, List.findSome?_cons, take?_mnemonic hw hrest]
    by_cases hbegins : a.mnemonic <+: w
    · have heq : a = o := by
        apply Opcode.mnemonic_injective
        rw [← hwo]
        apply hbegins.eq_of_length_le
        rcases List.mem_cons.mp ho with rfl | ho
        · exact (congrArg List.length hwo).le
        · rw [hwo]
          apply ha o ho
      subst heq
      rw [if_pos hbegins, if_pos hwo]
    · rw [if_neg hbegins]
      apply ih hos
      rcases List.mem_cons.mp ho with rfl | ho
      · cases hbegins (hwo ▸ List.prefix_refl _)
      · exact ho

/-- A mnemonic that is not the whole word leaves the word an identifier. -/
theorem findSome?_identifier (os : List Opcode) (hne : ∀ o : Opcode, w ≠ o.mnemonic) :
  (os.map mnemonic).findSome? (·.take? (w ++ rest)) = none
    ∨ (os.map mnemonic).findSome? (·.take? (w ++ rest)) = some (.token .identifier, w.length)
  := by
  induction os with
  | nil => exact .inl rfl
  | cons a os ih =>
    rw [List.map_cons, List.findSome?_cons, take?_mnemonic hw hrest, if_neg (hne a)]
    by_cases hbegins : a.mnemonic <+: w
    · rw [if_pos hbegins]
      exact .inr rfl
    · rw [if_neg hbegins]
      exact ih

end

/-! ### What the table tells -/

theorem take?_run (P Q : CodeUnit → Bool) (x : Lexeme) (u : CodeUnit) (r : Text) :
  (plain (.run P Q) x).take? (u :: r)
    = if P u then some (x, (r.takeWhile Q).length + 1) else none
  := by
  rw [take?, Pattern.length?_run]
  split <;> rfl

theorem take?_integer (u : CodeUnit) (r : Text) :
  (plain .integer (.token .integer)).take? (u :: r)
    = (Lexeme.integer? u r).map fun n => (.token .integer, n + 1)
  := by
  rw [take?, Pattern.length?, Pattern.lengths_integer, Option.head?_toList, Option.map_map]
  rfl

theorem take?_colon (u : CodeUnit) (r : Text) :
  (plain (.exactly (CodeUnit.ofChar ':')) (.token .colon)).take? (u :: r)
    = if u = CodeUnit.ofChar ':' then some (.token .colon, 1) else none
  := by
  rw [take?, Pattern.length?, Pattern.lengths_exactly]
  split <;> rfl

theorem take?_lineEnd (u : CodeUnit) (r : Text) :
  (plain .lineEnd (.token .newline)).take? (u :: r)
    = if u = Text.lineFeed then some (.token .newline, 1)
      else if u = Text.carriageReturn ∧ r.head? = some Text.lineFeed then some (.token .newline, 2)
      else none
  := by
  rw [take?, Pattern.length?_lineEnd]
  split
  · rfl
  · split <;> rfl

/-- Only what begins with a letter or `_` begins with a mnemonic. -/
theorem take?_mnemonic_of_not_isWordStart {u : CodeUnit} (hu : ¬ u.isWordStart = true) (o : Opcode)
    (r : Text) :
  (mnemonic o).take? (u :: r) = none
  := by
  have hbegins : ¬ o.mnemonic <+: u :: r := by
    intro h
    have hword := o.isWord_mnemonic
    cases hm : o.mnemonic with
    | nil =>
      rw [hm] at hword
      cases hword
    | cons v w =>
      rw [hm] at hword h
      rw [(List.cons_prefix_cons.mp h).1] at hword
      exact hu hword.1
  rw [mnemonic, take?, Pattern.length?_literal, if_neg hbegins]
  rfl

/-- Units that do not begin words begin integers and colons. -/
theorem first?_ofPlain_of_not_isWordStart {u : CodeUnit} (hu : ¬ u.isWordStart = true) (r : Text) :
  first? ofPlain (u :: r)
    = if u = CodeUnit.ofChar ':' then some (.token .colon, 1)
      else (Lexeme.integer? u r).map fun n => (.token .integer, n + 1)
  := by
  have hmnemonics : (opcodes.map mnemonic).findSome? (·.take? (u :: r)) = none := by
    rw [List.findSome?_map, List.findSome?_eq_none_iff]
    intro o _
    exact take?_mnemonic_of_not_isWordStart hu o r
  rw [first?, ofPlain, List.findSome?_append, hmnemonics, Option.none_or, List.findSome?_cons,
    take?_integer, List.findSome?_cons, Pattern.word, take?_run, if_neg hu, List.findSome?_cons,
    take?_colon]
  by_cases hcolon : u = CodeUnit.ofChar ':'
  · subst hcolon
    rfl
  · rw [if_neg hcolon, if_neg hcolon]
    cases Lexeme.integer? u r <;> rfl

/-- No integer begins as words do. -/
theorem integer?_of_isWordStart {u : CodeUnit} (hu : u.isWordStart = true) (r : Text) :
  Lexeme.integer? u r = none
  := by
  have hdigit : ¬ u.isDigit = true := by
    intro h
    rw [CodeUnit.isWordStart_of_isDigit h] at hu
    cases hu
  have hminus : u ≠ CodeUnit.ofChar '-' := by
    rintro rfl
    cases hu
  rw [Lexeme.integer?, if_neg hminus, Lexeme.unsigned?, if_neg hdigit]
  rfl

/-- A word is a mnemonic only if it is the whole of one. -/
theorem first?_ofPlain_word {w rest : Text} (hw : w.IsWord)
    (hrest : Text.Stops CodeUnit.isWordPart rest) :
  first? ofPlain (w ++ rest)
    = some (.token (Lexeme.wordKind w), w.length)
  := by
  rw [first?, ofPlain, List.findSome?_append, Lexeme.wordKind]
  cases hkind : Opcode.ofMnemonic? w with
  | some o =>
    have hwo := (Opcode.mnemonic_of_ofMnemonic? hkind).symm
    rw [findSome?_mnemonic hw hrest pairwise_opcodes (mem_opcodes o) hwo, Option.some_or]
  | none =>
    have hne (o : Opcode) : w ≠ o.mnemonic := by
      rintro rfl
      rw [Opcode.ofMnemonic?_mnemonic] at hkind
      cases hkind
    have hinteger : (plain .integer (.token .integer)).take? (w ++ rest) = none := by
      cases w with
      | nil => cases hw
      | cons u v =>
        rw [List.cons_append, take?_integer, integer?_of_isWordStart hw.1]
        rfl
    have hword : (plain .word (.token .identifier)).take? (w ++ rest)
        = some (.token .identifier, w.length) := by
      rw [take?, length?_word hw hrest]
      rfl
    rw [List.findSome?_cons, hinteger, List.findSome?_cons, hword]
    rcases findSome?_identifier hw hrest opcodes hne with h | h
    · rw [h, Option.none_or]
    · rw [h, Option.some_or]

/-- Blanks, line ends and comments are tried before all that begins with other units. -/
theorem first?_cons (u : CodeUnit) (r : Text) :
  first? table (u :: r)
    = if Lexeme.isBlank u then some (.blank, (r.takeWhile Lexeme.isBlank).length + 1)
      else if u = Text.lineFeed then some (.token .newline, 1)
      else if u = Text.carriageReturn ∧ r.head? = some Text.lineFeed then some (.token .newline, 2)
      else if u = CodeUnit.ofChar '#' then
        some (.comment, (r.takeWhile fun v => !Lexeme.isLineEnd v).length + 1)
      else first? ofPlain (u :: r)
  := by
  rw [first?, table, List.cons_append, List.cons_append, List.cons_append, List.nil_append,
    List.findSome?_cons, take?_run, List.findSome?_cons, take?_lineEnd, List.findSome?_cons,
    take?_run, ← first?]
  by_cases hblank : Lexeme.isBlank u = true
  · rw [if_pos hblank, if_pos hblank]
  · rw [if_neg hblank, if_neg hblank]
    by_cases hend : u = Text.lineFeed
    · rw [if_pos hend, if_pos hend]
    · rw [if_neg hend, if_neg hend]
      by_cases hreturn : u = Text.carriageReturn ∧ r.head? = some Text.lineFeed
      · rw [if_pos hreturn, if_pos hreturn]
      · rw [if_neg hreturn, if_neg hreturn]
        by_cases hhash : u = CodeUnit.ofChar '#'
        · rw [if_pos hhash, if_pos (beq_iff_eq.mpr hhash)]
        · rw [if_neg hhash, if_neg (fun h => hhash (eq_of_beq h))]

/-- What goes on from a word begins with it as a mnemonic or an identifier. -/
theorem first?_word {w rest : Text} (hw : w.IsWord)
    (hrest : Text.Stops CodeUnit.isWordPart rest) :
  first? table (w ++ rest) = some (.token (Lexeme.wordKind w), w.length)
  := by
  have hfind := first?_ofPlain_word hw hrest
  cases w with
  | nil => cases hw
  | cons u v =>
    have hplain := Lexeme.isPlain_of_isWordStart hw.1
    rw [List.cons_append, first?_cons, hplain.blank, if_neg Bool.false_ne_true,
      if_neg hplain.lineFeed, if_neg fun hr => hplain.carriageReturn hr.1, if_neg hplain.comment]
    exact hfind

/-- The table tells what stands at a place, as scanning does. -/
theorem first?_table (u : CodeUnit) (r : Text) :
  first? table (u :: r) = (Lexeme.ofText? u r).map fun x => (x.1, x.2 + 1)
  := by
  by_cases hu : u.isWordStart = true
  · have hv : ∀ x ∈ r.takeWhile CodeUnit.isWordPart, x.isWordPart = true :=
      fun x hx => List.mem_takeWhile_imp hx
    have hrest := Lexeme.stops_drop_takeWhile CodeUnit.isWordPart r
    have hcut := List.prefix_iff_eq_append.mp (List.takeWhile_prefix (l := r) CodeUnit.isWordPart)
    generalize r.drop (r.takeWhile CodeUnit.isWordPart).length = rest at hrest hcut
    generalize r.takeWhile CodeUnit.isWordPart = v at hv hcut
    rw [← hcut, Lexeme.ofText?_word hu hv hrest]
    exact first?_word (w := u :: v) ⟨hu, hv⟩ hrest
  · rw [first?_cons, first?_ofPlain_of_not_isWordStart hu, Lexeme.ofText?, if_neg hu]
    simp only [apply_ite (Option.map _), Option.map_some, Option.map_map]
    rfl

end Rule

end Assembly

end StackMachine
