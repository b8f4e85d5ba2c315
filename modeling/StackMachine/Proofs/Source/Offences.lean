import StackMachine.Proofs.Loading
import StackMachine.Proofs.Source.Layout

/-!
# Offences of the source

Lowering goes through the source once.  What it meets is listed here without any scope or code:
the names that are used, the parts that may be wrong by themselves, and the declarations that
are complete.  Whether something is an offence depends only on what was met before it, and
lowering reports exactly the offences, in this order.
-/

namespace StackMachine

namespace Source

/-! ### What is met -/

/-- What is met on the way through the source. -/
inductive Encounter where
  /-- The declaration of a function, which is not entered. -/
  | function (name : Text) (span : Option Span)
  /-- A call, whose arguments are not entered. -/
  | call (function : Text) (span : Option Span)
  /-- An assignment to an expression that is not a name; neither side is entered. -/
  | assignment (kind : Kind) (span : Option Span)
  | literal (value : Int) (span : Option Span)
  /-- A name that is read or assigned. -/
  | use (name : Name)
  /-- The end of a declaration of a variable. -/
  | declaration (name : Text)
deriving DecidableEq

/-- What is met in an expression. -/
def Expr.encounters : Expr → List Encounter
  | .name n => [.use n]
  | .int value span => [.literal value span]
  | .bool .. => []
  | .binary _ left right _ => left.encounters ++ right.encounters
  | .unary _ operand _ => operand.encounters
  | .call function _ span => [.call function span]

/-- What is met in an assignment: the target before the value. -/
def encountersOfAssign (target value : Expr) (span : Option Span) : List Encounter :=
  match target with
  | .name n => .use n :: value.encounters
  | e => [.assignment e.kind (e.span <|> span)]

mutual

/-- What is met in a statement: the value of a declaration before its end, a test before what it
guards, and the body of a loop before the update. -/
def Stmt.encounters : Stmt → List Encounter
  | .block body _ => encountersAll body
  | .whileLoop test body _ => test.encounters ++ body.encounters
  | .ifThen test yes _ => test.encounters ++ yes.encounters
  | .ifThenElse test yes no _ => test.encounters ++ yes.encounters ++ no.encounters
  | .result none _ => []
  | .result (some value) _ => value.encounters
  | .declare name value _ => value.encounters ++ [.declaration name]
  | .function name _ _ span => [.function name span]
  | .assign target value span => encountersOfAssign target value span
  | .forLoop start test update body _ =>
    start.encounters ++ test.encounters ++ body.encounters ++ update.encounters

/-- What is met in statements one after another. -/
def Stmt.encountersAll : List Stmt → List Encounter
  | [] => []
  | s :: r => s.encounters ++ encountersAll r

end

/-! ### Offences -/

/-- The offence that something is after what was met before it: the code of its diagnostic, and
the problem. -/
def Encounter.offence? (before : List Encounter) : Encounter → Option (Text × Problem)
  | function name span => some ("E_UNSUPPORTED", .function name span)
  | call name span => some ("E_UNSUPPORTED", .call name span)
  | assignment kind span => some ("E_LVALUE", .assignment kind span)
  | literal value span =>
    if Word.IsWord value then none else some ("E_RANGE", .literalRange value span)
  | use n => if declaration n.text ∈ before then none else some ("E_UNBOUND", .unbound n)
  | declaration _ => none

/-- The offences among what is met, in its order. -/
def offences (before : List Encounter) : List Encounter → List (Text × Problem)
  | [] => []
  | e :: r => (e.offence? before).toList ++ offences (before ++ [e]) r

theorem offences_append (before l l' : List Encounter) :
  offences before (l ++ l') = offences before l ++ offences (before ++ l) l'
  := by
  induction l generalizing before with
  | nil => rw [List.append_nil, offences, List.nil_append, List.nil_append]
  | cons e r ih => rw [List.cons_append, offences, offences, ih, List.append_assoc,
      List.append_assoc, List.singleton_append]

theorem offences_singleton (before : List Encounter) (e : Encounter) :
  offences before [e] = (e.offence? before).toList
  := by
  rw [offences, offences, List.append_nil]

/-! ### Scopes -/

/-- The declarations that were met are those of the names in a scope. -/
def Declares (before : List Encounter) (scope : Scope) : Prop :=
  ∀ x, .declaration x ∈ before ↔ x ∈ scope

/-- No declaration is met in an expression. -/
theorem Expr.declaration_not_mem_encounters (x : Text) :
    ∀ e : Expr, .declaration x ∉ e.encounters
  | .name _ => by simp [encounters]
  | .int .. => by simp [encounters]
  | .bool .. => by simp [encounters]
  | .binary _ left right _ => by
    simp [encounters, declaration_not_mem_encounters x left,
      declaration_not_mem_encounters x right]
  | .unary _ operand _ => by
    rw [encounters]
    apply declaration_not_mem_encounters x operand
  | .call .. => by simp [encounters]

theorem declaration_not_mem_encountersOfAssign (x : Text) (target value : Expr)
    (span : Option Span) :
  .declaration x ∉ encountersOfAssign target value span
  := by
  cases target with
  | name n => simp [encountersOfAssign, value.declaration_not_mem_encounters x]
  | int | bool | binary | unary | call => simp [encountersOfAssign]

mutual

/-- The declarations that are met in a statement are those of the names that it declares. -/
theorem Stmt.declaration_mem_encounters (x : Text) :
    ∀ s : Stmt, .declaration x ∈ s.encounters ↔ x ∈ s.declared
  | .block body _ => by
    rw [encounters, declared]
    apply declaration_mem_encountersAll x body
  | .whileLoop test body _ => by
    simp [encounters, declared, test.declaration_not_mem_encounters x,
      declaration_mem_encounters x body]
  | .ifThen test yes _ => by
    simp [encounters, declared, test.declaration_not_mem_encounters x,
      declaration_mem_encounters x yes]
  | .ifThenElse test yes no _ => by
    simp [encounters, declared, test.declaration_not_mem_encounters x,
      declaration_mem_encounters x yes, declaration_mem_encounters x no]
  | .result none _ => by simp [encounters, declared]
  | .result (some value) _ => by
    simp [encounters, declared, value.declaration_not_mem_encounters x]
  | .declare name value _ => by
    simp [encounters, declared, value.declaration_not_mem_encounters x]
  | .function .. => by simp [encounters, declared]
  | .assign target value span => by
    simp [encounters, declared, declaration_not_mem_encountersOfAssign x target value span]
  | .forLoop start test update body _ => by
    simp [encounters, declared, test.declaration_not_mem_encounters x,
      declaration_mem_encounters x start, declaration_mem_encounters x body,
      declaration_mem_encounters x update]

theorem Stmt.declaration_mem_encountersAll (x : Text) :
    ∀ l : List Stmt, .declaration x ∈ Stmt.encountersAll l ↔ x ∈ Stmt.declaredAll l
  | [] => by simp [encountersAll, declaredAll]
  | s :: r => by
    simp [encountersAll, declaredAll, declaration_mem_encounters x s,
      declaration_mem_encountersAll x r]

end

namespace Declares

variable {before : List Encounter} {scope : Scope}

/-- Behind an expression the same names are declared. -/
theorem expr (h : Declares before scope) (e : Expr) :
  Declares (before ++ e.encounters) scope
  := by
  intro x
  rw [List.mem_append, or_iff_left (e.declaration_not_mem_encounters x)]
  apply h

/-- Behind a statement the names of the scope after it are declared. -/
theorem stmt (h : Declares before scope) (s : Stmt) :
  Declares (before ++ s.encounters) (s.scopeAfter scope)
  := by
  intro x
  rw [List.mem_append, s.declaration_mem_encounters, Stmt.scopeAfter_eq, Scope.mem_declareAll, h]

end Declares

/-! ### Problems of lowered code -/

/-- A problem as an offence, with the code of its diagnostic. -/
def Problem.offence (p : Problem) : Text × Problem := (p.diagnostic.code, p)

/-- The offences that the problems of a piece are. -/
def Piece.offences (p : Piece) : List (Text × Problem) := p.problems.map Problem.offence

namespace Piece

theorem offences_append (p q : Piece) :
  (p ++ q).offences = p.offences ++ q.offences
  := List.map_append

@[simp]
theorem offences_ofCode (code : Code) :
  (ofCode code).offences = []
  := rfl

/-- Code behind a piece is no offence. -/
theorem offences_append_ofCode (p : Piece) (code : Code) :
  (p ++ ofCode code).offences = p.offences
  := by
  rw [offences_append, offences_ofCode, List.append_nil]

/-- The jumps of a loop are no offences. -/
theorem offences_loop (base : Nat) (test body : Piece) :
  (loop base test body).offences = test.offences ++ body.offences
  := by
  rw [loop, offences_append_ofCode, offences_append, offences_append_ofCode]

end Piece

open Piece

/-- A name has a slot, or its use is an offence. -/
theorem Declares.slot {before : List Encounter} {scope : Scope} (h : Declares before scope)
    (n : Name) :
  (∃ slot, n.slot scope = .ok slot ∧ (Encounter.use n).offence? before = none)
    ∨ n.slot scope = .error (.unbound n)
      ∧ (Encounter.use n).offence? before = some (Problem.unbound n).offence
  := by
  have hslot : (scope.slot? n.text).isSome ↔ .declaration n.text ∈ before := by
    rw [h n.text]
    apply List.isSome_idxOf?
  rw [Name.slot]
  cases hn : scope.slot? n.text with
  | some slot =>
    rw [hn] at hslot
    left
    use slot, rfl
    apply if_pos (hslot.mp rfl)
  | none =>
    rw [hn] at hslot
    right
    use rfl
    apply if_neg
    intro hmem
    cases hslot.mpr hmem

/-- The problems of an expression are its offences. -/
theorem Expr.offences_lower :
    ∀ (e : Expr) {before : List Encounter} {scope : Scope}, Declares before scope →
      (e.lower scope).offences = offences before e.encounters
  | .name n, before, scope, h => by
    rw [lower, encounters, offences_singleton]
    rcases h.slot n with ⟨slot, hslot, huse⟩ | ⟨hslot, huse⟩
    · rw [hslot, huse]
      rfl
    · rw [hslot, huse]
      rfl
  | .int value span, before, scope, h => by
    rw [lower, encounters, offences_singleton, Encounter.offence?]
    split
    · rfl
    · rfl
  | .bool .., before, scope, h => by
    rw [lower, encounters]
    rfl
  | .binary _ left right _, before, scope, h => by
    rw [lower, encounters, Source.offences_append, offences_append_ofCode,
      Piece.offences_append, offences_lower left h, offences_lower right (h.expr left)]
  | .unary _ operand _, before, scope, h => by
    rw [lower, encounters, offences_append_ofCode, offences_lower operand h]
  | .call .., before, scope, h => by
    rw [lower, encounters]
    rfl

/-- The problems of an assignment are its offences. -/
theorem offences_lowerAssign {before : List Encounter} {scope : Scope}
    (h : Declares before scope) (target value : Expr) (span : Option Span) :
  (lowerAssign scope target value span).offences
    = offences before (encountersOfAssign target value span)
  := by
  cases target with
  | name n =>
    have huse : Declares (before ++ [.use n]) scope := h.expr (.name n)
    rw [lowerAssign, encountersOfAssign, offences]
    rcases h.slot n with ⟨slot, hslot, hnone⟩ | ⟨hslot, hsome⟩
    · rw [hslot, hnone]
      apply (offences_append_ofCode _ _).trans (value.offences_lower huse)
    · rw [hslot, hsome]
      rw [← value.offences_lower huse]
      rfl
  | int | bool | binary | unary | call => rfl

mutual

/-- The problems of a statement are its offences. -/
theorem Stmt.offences_lower :
    ∀ (s : Stmt) {before : List Encounter} {scope : Scope} (base : Nat),
      Declares before scope → (s.lower scope base).offences = offences before s.encounters
  | .block body _, before, scope, base, h => by
    rw [lower, encounters, offences_lowerAll body base h]
  | .whileLoop test body _, before, scope, base, h => by
    simp only [lower]
    rw [encounters, offences_loop, Source.offences_append, test.offences_lower h,
      offences_lower body _ (h.expr test)]
  | .ifThen test yes _, before, scope, base, h => by
    simp only [lower]
    rw [encounters, Piece.offences_append, offences_append_ofCode, Source.offences_append,
      test.offences_lower h, offences_lower yes _ (h.expr test)]
  | .ifThenElse test yes no _, before, scope, base, h => by
    have htest := h.expr test
    have hyes := htest.stmt yes
    simp only [lower]
    rw [encounters, Piece.offences_append, offences_append_ofCode, Piece.offences_append,
      offences_append_ofCode, Source.offences_append, Source.offences_append,
      test.offences_lower h, offences_lower yes _ htest, ← List.append_assoc before,
      offences_lower no _ hyes]
  | .result none _, before, scope, base, h => by
    rw [lower, encounters]
    rfl
  | .result (some value) _, before, scope, base, h => by
    rw [lower, encounters, offences_append_ofCode, value.offences_lower h]
  | .declare name value _, before, scope, base, h => by
    rw [lower, encounters, offences_append_ofCode, Source.offences_append,
      value.offences_lower h, offences_singleton, Encounter.offence?, Option.toList_none,
      List.append_nil]
  | .function .., before, scope, base, h => by
    rw [lower, encounters]
    rfl
  | .assign target value span, before, scope, base, h => by
    rw [lower, encounters, offences_lowerAssign h]
  | .forLoop start test update body _, before, scope, base, h => by
    have hstart := h.stmt start
    have htest := hstart.expr test
    have hbody := htest.stmt body
    simp only [lower]
    rw [encounters, Piece.offences_append, offences_loop, Piece.offences_append,
      Source.offences_append, Source.offences_append, Source.offences_append,
      offences_lower start base h, test.offences_lower hstart, offences_lower body _ htest,
      ← List.append_assoc before, ← List.append_assoc before, ← List.append_assoc before,
      offences_lower update _ hbody]
    simp only [List.append_assoc]

/-- The problems of statements are their offences. -/
theorem Stmt.offences_lowerAll :
    ∀ (l : List Stmt) {before : List Encounter} {scope : Scope} (base : Nat),
      Declares before scope →
        (Stmt.lowerAll scope base l).offences = offences before (Stmt.encountersAll l)
  | [], before, scope, base, h => by
    rw [lowerAll, encountersAll]
    rfl
  | s :: r, before, scope, base, h => by
    simp only [lowerAll]
    rw [encountersAll, Piece.offences_append, Source.offences_append, offences_lower s base h,
      offences_lowerAll r _ (h.stmt s)]

end

/-! ### Programs -/

/-- Lowering reports the problems of the statements. -/
theorem reports_lower (statements : List Stmt) :
  reports (lower statements) = (Stmt.lowerAll [] 0 statements).problems
  := by
  rw [lower]
  rcases Stmt.lowerAll [] 0 statements with ⟨code, problems⟩
  cases problems with
  | nil => rfl
  | cons p r => rfl

/-- Lowering reports exactly the offences of the source, in the order in which they are met, each
with its code, and delivers a program exactly if there are none. -/
theorem lower_reports_offences (statements : List Stmt) :
  (reports (lower statements)).map (fun p => (p.diagnostic.code, p))
      = offences [] (Stmt.encountersAll statements)
    ∧ ((∃ code, lower statements = .ok code)
      ↔ offences [] (Stmt.encountersAll statements) = [])
  := by
  have hreports : (reports (lower statements)).map (fun p => (p.diagnostic.code, p))
      = offences [] (Stmt.encountersAll statements) := by
    rw [reports_lower]
    apply Stmt.offences_lowerAll statements 0
    simp [Declares]
  use hreports
  rw [← hreports, List.map_eq_nil_iff]
  apply exists_ok_iff_reports (lower_ne_error_nil statements)

/-- The update of a counted loop sees what the body declares, and a declaration does not see itself
in its value. -/
example :
  offences [] (Stmt.encountersAll
    [.forLoop (.declare "n" (.name { text := "n" }) none) (.bool true none)
      (.assign (.name { text := "m" }) (.int 1 none) none)
      (.declare "m" (.name { text := "n" }) none) none])
    = [(Problem.unbound { text := "n" }).offence]
  := rfl

end Source

end StackMachine
