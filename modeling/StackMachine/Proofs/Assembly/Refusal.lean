import StackMachine.Proofs.Assembly.Reading
import StackMachine.Proofs.Assembly.Sources

/-!
# Texts that are not assembled

What a lexeme consists of, and what follows for texts without comments: a plus sign begins nothing
and belongs to nothing, and a minus sign right after a word is taken for an integer, which no line
has after a word.
-/

namespace StackMachine

namespace Assembly

/-! ### Lexemes -/

namespace Lexeme

/-- What a lexeme consists of: its first unit and the units after it. -/
inductive Consists : Lexeme → CodeUnit → Text → Prop where
  | blank {u : CodeUnit} {v : Text} (hu : isBlank u = true) (hv : ∀ x ∈ v, isBlank x = true) :
    Consists blank u v
  | lineFeed : Consists (token .newline) Text.lineFeed []
  | lineEnd : Consists (token .newline) Text.carriageReturn [Text.lineFeed]
  | comment {v : Text} (hv : ∀ x ∈ v, isLineEnd x = false) :
    Consists comment (CodeUnit.ofChar '#') v
  | word {u : CodeUnit} {v : Text} (hu : u.isWordStart = true)
    (hv : ∀ x ∈ v, x.isWordPart = true) : Consists (token (wordKind (u :: v))) u v
  | colon : Consists (token .colon) (CodeUnit.ofChar ':') []
  | integer {u : CodeUnit} {v : Text} (hu : u = CodeUnit.ofChar '-' ∨ u.isDigit = true)
    (hv : ∀ x ∈ v, x.isDigit = true) : Consists (token .integer) u v

/-- The units of a run belong to its class. -/
theorem of_mem_take_takeWhile {P : CodeUnit → Bool} {r : Text} :
  ∀ x ∈ r.take (r.takeWhile P).length, P x = true
  := by
  rw [← List.prefix_iff_eq_take.mp (List.takeWhile_prefix _)]
  intro x hx
  apply List.mem_takeWhile_imp hx

theorem consists_of_integer? {u : CodeUnit} {r : Text} {n : Nat} (h : integer? u r = some n) :
  Consists (token .integer) u (r.take n)
  := by
  rw [integer?] at h
  split at h
  · next hu =>
    apply Consists.integer (.inl hu)
    apply (isDigit_of_unsigned? h).2
  · obtain ⟨k, hk, rfl⟩ := Option.map_eq_some_iff.mp h
    obtain ⟨hne, hdigits⟩ := isDigit_of_unsigned? hk
    cases k with
    | zero => cases hne rfl
    | succ k =>
      rw [List.take_succ_cons] at hdigits
      obtain ⟨hu, hv⟩ := List.forall_mem_cons.mp hdigits
      exact Consists.integer (.inr hu) hv

/-- What begins with a unit consists of it and of the units after it that belong to it. -/
theorem consists_of_ofText? {u : CodeUnit} {r : Text} {x : Lexeme} {n : Nat}
    (h : ofText? u r = some (x, n)) :
  Consists x u (r.take n)
  := by
  rw [ofText?] at h
  split at h
  · next hu =>
    cases h
    exact Consists.blank hu of_mem_take_takeWhile
  · split at h
    · next hu =>
      cases h
      rw [hu]
      exact Consists.lineFeed
    · split at h
      · next hu =>
        cases h
        obtain ⟨hu, hr⟩ := hu
        obtain ⟨r', rfl⟩ := List.head?_eq_some_iff.mp hr
        rw [hu]
        exact Consists.lineEnd
      · split at h
        · next hu =>
          cases h
          rw [hu]
          apply Consists.comment
          intro x hx
          have := of_mem_take_takeWhile (P := fun v => !isLineEnd v) x hx
          rwa [Bool.not_eq_true'] at this
        · split at h
          · next hu =>
            cases h
            exact Consists.word hu of_mem_take_takeWhile
          · split at h
            · next hu =>
              cases h
              rw [hu]
              exact Consists.colon
            · obtain ⟨k, hk, hmap⟩ := Option.map_eq_some_iff.mp h
              cases hmap
              exact consists_of_integer? hk

section

variable {x : Lexeme} {u : CodeUnit} {v : Text} (h : Consists x u v)
  (hhash : u ≠ CodeUnit.ofChar '#')

include h hhash in
/-- No unit but the first is a minus sign, and none is a plus sign. -/
theorem Consists.signs :
  CodeUnit.ofChar '+' ∉ u :: v ∧ CodeUnit.ofChar '-' ∉ v
  := by
  have hmem {P : CodeUnit → Bool} (hv : ∀ x ∈ v, P x = true) {c : CodeUnit}
      (hc : P c = false) : c ∉ v := by
    intro hcv
    rw [hv c hcv] at hc
    cases hc
  have hne {P : CodeUnit → Bool} (hu : P u = true) {c : CodeUnit} (hc : P c = false) :
      c ≠ u := by
    rintro rfl
    rw [hu] at hc
    cases hc
  rw [List.mem_cons, not_or]
  cases h with
  | blank hu hv => exact ⟨⟨hne hu rfl, hmem hv rfl⟩, hmem hv rfl⟩
  | lineFeed => decide
  | lineEnd => decide
  | comment => cases hhash rfl
  | word hu hv => exact ⟨⟨hne hu rfl, hmem hv rfl⟩, hmem hv rfl⟩
  | colon => decide
  | integer hu hv =>
    refine ⟨⟨?_, hmem hv rfl⟩, hmem hv rfl⟩
    rcases hu with rfl | hu
    · decide
    · exact hne hu rfl

include h hhash in
/-- What ends with the letter with which labels begin is an identifier. -/
theorem Consists.identifier {w : Text} (hlast : u :: v = w ++ [CodeUnit.ofChar 'L']) :
  x = token .identifier
  := by
  have hmem : CodeUnit.ofChar 'L' ∈ u :: v := by
    rw [hlast]
    simp
  have hall {P : CodeUnit → Bool} (hu : P u = true) (hv : ∀ x ∈ v, P x = true)
      (hL : P (CodeUnit.ofChar 'L') = false) : False := by
    rcases List.mem_cons.mp hmem with hmem | hmem
    · rw [← hmem, hL] at hu
      cases hu
    · rw [hv _ hmem] at hL
      cases hL
  cases h with
  | blank hu hv => cases hall hu hv rfl
  | lineFeed => revert hmem; decide
  | lineEnd => revert hmem; decide
  | comment => cases hhash rfl
  | word hu hv =>
    have hnone : Opcode.ofMnemonic? (u :: v) = none := by
      have hends : ∀ o ∈ Opcode.all, o.mnemonic.getLast? ≠ some (CodeUnit.ofChar 'L') := by decide
      apply List.find?_eq_none.mpr
      intro o ho h
      apply hends o ho
      rw [eq_of_beq h, hlast, List.getLast?_concat]
    rw [wordKind, hnone]
  | colon => revert hmem; decide
  | integer hu hv =>
    rcases hu with rfl | hu
    · rcases List.mem_cons.mp hmem with hmem | hmem
      · revert hmem; decide
      · have := hv _ hmem
        revert this; decide
    · cases hall hu hv rfl

end

end Lexeme

/-! ### Scanning -/

/-- In a text without comments a plus sign is an error. -/
theorem errors_ne_nil_of_plus {p : Place} {s : Text} (hhash : CodeUnit.ofChar '#' ∉ s)
    (hplus : CodeUnit.ofChar '+' ∈ s) :
  Lexed.errors (Lexed.scan p s) ≠ []
  := by
  have hrest {u : CodeUnit} {r : Text} {x : Lexeme} {n : Nat}
      (h : Lexeme.ofText? u r = some (x, n)) (hhash : CodeUnit.ofChar '#' ∉ u :: r)
      (hplus : CodeUnit.ofChar '+' ∈ u :: r) :
      CodeUnit.ofChar '#' ∉ r.drop n ∧ CodeUnit.ofChar '+' ∈ r.drop n := by
    have hu : u ≠ CodeUnit.ofChar '#' := fun hu => hhash (hu ▸ List.mem_cons_self)
    obtain ⟨hnone, -⟩ := (Lexeme.consists_of_ofText? h).signs hu
    constructor
    · intro hmem
      exact hhash (List.mem_cons_of_mem u (List.mem_of_mem_drop hmem))
    · rw [← List.take_append_drop n r, ← List.cons_append] at hplus
      exact (List.mem_append.mp hplus).resolve_left hnone
  fun_induction Lexed.scan p s with
  | case1 => cases hplus
  | case2 p u r n kind h rest ih =>
    obtain ⟨hhash, hplus⟩ := hrest h hhash hplus
    exact ih hhash hplus
  | case3 p u r x n h rest _ ih =>
    obtain ⟨hhash, hplus⟩ := hrest h hhash hplus
    exact ih hhash hplus
  | case4 => rintro ⟨⟩

/-- An identifier and an integer after it, among tokens. -/
def IdentifierInteger (ts : List Token) : Prop :=
  ∃ before t t' after, ts = before ++ t :: t' :: after ∧ t.kind = .identifier
    ∧ t'.kind = .integer

theorem IdentifierInteger.cons {ts : List Token} (h : IdentifierInteger ts) (t : Token) :
  IdentifierInteger (t :: ts)
  := by
  obtain ⟨before, t', t'', after, rfl, hkinds⟩ := h
  exact ⟨t :: before, t', t'', after, rfl, hkinds⟩

/-- A label's first letter and a minus sign right after it stand behind what is read first, or are
the end of it and the beginning of the rest. -/
theorem minus_cases {u : CodeUnit} {r : Text} {x : Lexeme} {n : Nat}
    (h : Lexeme.ofText? u r = some (x, n)) (hu : u ≠ CodeUnit.ofChar '#') {a b : Text}
    (hminus : u :: r = a ++ CodeUnit.ofChar 'L' :: CodeUnit.ofChar '-' :: b) :
  (∃ a', r.drop n = a' ++ CodeUnit.ofChar 'L' :: CodeUnit.ofChar '-' :: b)
    ∨ x = .token .identifier ∧ r.drop n = CodeUnit.ofChar '-' :: b
  := by
  have hconsists := Lexeme.consists_of_ofText? h
  obtain ⟨-, hsign⟩ := hconsists.signs hu
  rw [← List.take_append_drop n r, ← List.cons_append] at hminus
  rcases List.append_eq_append_iff.mp hminus with ⟨a', -, hdrop⟩ | ⟨c, htake, hdrop⟩
  · left
    exact ⟨a', hdrop⟩
  · cases c with
    | nil =>
      left
      exact ⟨[], hdrop.symm⟩
    | cons c cs =>
      obtain ⟨rfl, hcs⟩ := List.cons.inj hdrop
      cases cs with
      | nil =>
        right
        exact ⟨hconsists.identifier hu htake, hcs.symm⟩
      | cons d ds =>
        obtain ⟨rfl, -⟩ := List.cons.inj hcs
        exfalso
        apply hsign
        cases a with
        | nil =>
          rw [(List.cons.inj htake).2]
          exact List.mem_cons_self
        | cons e a =>
          rw [(List.cons.inj htake).2]
          simp

/-- A minus sign begins an integer or is an error. -/
theorem integer_of_minus {p : Place} {b : Text}
    (herrors : Lexed.errors (Lexed.scan p (CodeUnit.ofChar '-' :: b)) = []) :
  ∃ t after, Lexed.tokens (Lexed.scan p (CodeUnit.ofChar '-' :: b)) = t :: after
    ∧ t.kind = .integer
  := by
  rw [Lexed.scan] at herrors ⊢
  rw [Lexeme.ofText?_minus] at herrors ⊢
  cases hb : Lexeme.unsigned? b with
  | none =>
    rw [hb] at herrors
    cases herrors
  | some n => exact ⟨_, _, rfl, rfl⟩

/-- In a text without comments and without errors, the letter with which labels begin and a minus
sign right after it are the end of an identifier and the beginning of an integer. -/
theorem identifierInteger_of_minus {p : Place} {s : Text} (hhash : CodeUnit.ofChar '#' ∉ s)
    {a b : Text} (hminus : s = a ++ CodeUnit.ofChar 'L' :: CodeUnit.ofChar '-' :: b)
    (herrors : Lexed.errors (Lexed.scan p s) = []) :
  IdentifierInteger (Lexed.tokens (Lexed.scan p s))
  := by
  have hrest {u : CodeUnit} {r : Text} (n : Nat) (hhash : CodeUnit.ofChar '#' ∉ u :: r) :
      u ≠ CodeUnit.ofChar '#' ∧ CodeUnit.ofChar '#' ∉ r.drop n := by
    rw [List.mem_cons, not_or] at hhash
    exact ⟨Ne.symm hhash.1, fun hmem => hhash.2 (List.mem_of_mem_drop hmem)⟩
  fun_induction Lexed.scan p s generalizing a with
  | case1 => simp at hminus
  | case2 p u r n kind h rest ih =>
    obtain ⟨hu, hdrop⟩ := hrest n hhash
    rcases minus_cases h hu hminus with ⟨a', ha'⟩ | ⟨hkind, hnext⟩
    · apply (ih hdrop ha' herrors).cons
    · cases hkind
      have hscan : Lexed.errors rest = [] := herrors
      obtain ⟨t, after, htokens, ht⟩ : ∃ t after, Lexed.tokens rest = t :: after
          ∧ t.kind = .integer := by
        simp only [rest] at hscan ⊢
        rw [hnext] at hscan ⊢
        exact integer_of_minus hscan
      exact ⟨[], ⟨.identifier, u :: r.take n, p⟩, t, after, congrArg (List.cons _) htokens, rfl, ht⟩
  | case3 p u r x n h rest hx ih =>
    obtain ⟨hu, hdrop⟩ := hrest n hhash
    rcases minus_cases h hu hminus with ⟨a', ha'⟩ | ⟨hkind, -⟩
    · exact ih hdrop ha' herrors
    · cases hx _ hkind
  | case4 => cases herrors

/-- No line has an integer after an identifier. -/
theorem ofTokensFrom_ne_ok {ts : List Token} (h : IdentifierInteger ts) (s : LineState)
    (lines : List Line) :
  Line.ofTokensFrom s ts ≠ .ok lines
  := by
  obtain ⟨before, t, t', after, rfl, ht, ht'⟩ := h
  induction before generalizing s lines with
  | nil =>
    obtain ⟨kind, image, place⟩ := t
    obtain ⟨kind', image', place'⟩ := t'
    cases ht
    cases ht'
    cases s <;> rintro ⟨⟩
  | cons t before ih =>
    rw [List.cons_append, Line.ofTokensFrom]
    split
    · rintro ⟨⟩
    · apply ih
    · intro hok
      obtain ⟨rest, hrest, -⟩ := Instruction.map_eq_ok hok
      exact ih _ _ hrest

/-- Text that is not assembled: it has no comments, and a plus sign, or the letter with which
labels begin before a minus sign. -/
theorem not_assemble_of_sign {source : Text} (hhash : CodeUnit.ofChar '#' ∉ source)
    (h : CodeUnit.ofChar '+' ∈ source ∨
      [CodeUnit.ofChar 'L', CodeUnit.ofChar '-'] <:+: source) (code : Code) :
  assemble source ≠ .ok code
  := by
  intro hcode
  obtain ⟨lines, hreads, -⟩ := exists_reads hcode
  obtain ⟨more, hmore, hterminated⟩ : ∃ more, CodeUnit.ofChar '#' ∉ more
      ∧ terminated source = source ++ more := by
    rw [terminated]
    split
    · exact ⟨[], by simp, (List.append_nil _).symm⟩
    · exact ⟨[Text.lineFeed], by decide, rfl⟩
  have hhash' : CodeUnit.ofChar '#' ∉ terminated source := by
    rw [hterminated, List.mem_append, not_or]
    exact ⟨hhash, hmore⟩
  rcases h with hplus | ⟨a, b, hminus⟩
  · apply errors_ne_nil_of_plus hhash' _ hreads.scans
    rw [hterminated]
    exact List.mem_append_left _ hplus
  · apply ofTokensFrom_ne_ok _ _ _ hreads.parses
    apply identifierInteger_of_minus hhash' (a := a) (b := b ++ more) _ hreads.scans
    rw [hterminated, ← hminus]
    simp

end Assembly

end StackMachine
