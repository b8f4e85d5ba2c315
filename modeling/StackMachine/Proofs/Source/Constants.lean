import StackMachine.Proofs.Source.Layout
import StackMachine.Proofs.Word

/-!
# Constants of lowered code

The constants of lowered code are words: literals that are no words are problems, and slots
are less than the number of declared names.
-/

namespace StackMachine

namespace Source

/-- A piece all of whose constants are words. -/
def Piece.IsWellFormed (p : Piece) : Prop := ∀ i ∈ p.code, i.IsWellFormed

namespace Piece

theorem isWellFormed_append {p q : Piece} (hp : p.IsWellFormed) (hq : q.IsWellFormed) :
  (p ++ q).IsWellFormed
  := by
  intro i hi
  rcases List.mem_append.mp hi with hi | hi
  · apply hp i hi
  · apply hq i hi

theorem isWellFormed_ofProblem (p : Problem) :
  (ofProblem p).IsWellFormed
  := by
  rintro i ⟨⟩

/-- An instruction without a constant is well formed. -/
theorem isWellFormed_single {i : Instruction Nat} (h : i.IsWellFormed) :
  (ofCode [i]).IsWellFormed
  := by
  intro j hj
  rw [List.mem_singleton.mp hj]
  apply h

end Piece

open Piece

/-- A scope is small if its slots are words. -/
def Scope.IsSmall (scope : Scope) : Prop := (scope.length : Int) ≤ Word.greatest + 1

namespace Scope

variable {scope : Scope}

theorem IsSmall.of_prefix {scope' : Scope} (h : scope'.IsSmall) (hscope : scope <+: scope') :
  scope.IsSmall
  := Int.le_trans (Int.ofNat_le.mpr hscope.length_le) h

/-- A slot of a small scope is a word. -/
theorem IsSmall.isWord {name : Text} {slot : Nat} (h : scope.IsSmall)
    (hslot : scope.slot? name = some slot) :
  Word.IsWord slot
  := by
  have := lt_of_slot? hslot
  rw [IsSmall, Word.greatest] at h
  rw [Word.IsWord, Word.least, Word.greatest]
  omega

theorem IsSmall.readSlot {name : Text} {slot : Nat} (h : scope.IsSmall)
    (hslot : scope.slot? name = some slot) :
  (ofCode (readSlot slot)).IsWellFormed
  := by
  intro i hi
  rcases List.mem_pair.mp hi with rfl | rfl
  · apply h.isWord hslot
  · trivial

theorem IsSmall.writeSlot {name : Text} {slot : Nat} (h : scope.IsSmall)
    (hslot : scope.slot? name = some slot) :
  (ofCode (writeSlot slot)).IsWellFormed
  := by
  intro i hi
  rcases List.mem_cons.mp hi with rfl | hi
  · apply h.isWord hslot
  · rcases List.mem_pair.mp hi with rfl | rfl
    · trivial
    · trivial

end Scope

/-- The constants of the code of an expression are words. -/
theorem Expr.isWellFormed_lower {scope : Scope} (h : scope.IsSmall) :
    ∀ e : Expr, (e.lower scope).IsWellFormed
  | .name n => by
    rw [lower, Name.slot]
    cases hslot : scope.slot? n.text with
    | none => apply isWellFormed_ofProblem
    | some slot => apply h.readSlot hslot
  | .int value span => by
    rw [lower]
    split
    · next hvalue => exact isWellFormed_single hvalue
    · apply isWellFormed_ofProblem
  | .bool value _ => by
    rw [lower]
    apply isWellFormed_single
    apply Word.isWord_ofBool
  | .binary op left right _ => by
    rw [lower]
    apply isWellFormed_append
    · apply isWellFormed_append
      · apply isWellFormed_lower h left
      · apply isWellFormed_lower h right
    · exact isWellFormed_single trivial
  | .unary op operand _ => by
    rw [lower]
    apply isWellFormed_append
    · apply isWellFormed_lower h operand
    · exact isWellFormed_single trivial
  | .call .. => by
    rw [lower]
    apply isWellFormed_ofProblem

/-- The constants of the code of an assignment are words. -/
theorem isWellFormed_lowerAssign {scope : Scope} (h : scope.IsSmall) (target value : Expr)
    (span : Option Span) :
  (lowerAssign scope target value span).IsWellFormed
  := by
  rw [lowerAssign.eq_def]
  split
  · next n =>
    rw [Name.slot]
    cases hslot : scope.slot? n.text with
    | none =>
      apply isWellFormed_append
      · apply isWellFormed_ofProblem
      · apply Expr.isWellFormed_lower h
    | some slot =>
      apply isWellFormed_append
      · apply Expr.isWellFormed_lower h
      · apply h.writeSlot hslot
  · apply isWellFormed_ofProblem

/-- The constants of a loop are those of its test and its body. -/
theorem isWellFormed_loop {base : Nat} {test body : Piece} (htest : test.IsWellFormed)
    (hbody : body.IsWellFormed) :
  (loop base test body).IsWellFormed
  := by
  apply isWellFormed_append
  · apply isWellFormed_append
    · apply isWellFormed_append htest
      exact isWellFormed_single trivial
    · apply hbody
  · exact isWellFormed_single trivial

mutual

/-- The constants of the code of a statement are words. -/
theorem Stmt.isWellFormed_lower :
    ∀ (s : Stmt) {scope : Scope} (base : Nat), (s.scopeAfter scope).IsSmall →
      (s.lower scope base).IsWellFormed
  | .block body _, scope, base, h => by
    rw [lower]
    rw [scopeAfter] at h
    apply isWellFormed_lowerAll body base h
  | .whileLoop test body _, scope, base, h => by
    rw [scopeAfter] at h
    have hscope := h.of_prefix (prefix_scopeAfter scope body)
    simp only [lower]
    apply isWellFormed_loop (test.isWellFormed_lower hscope)
    apply isWellFormed_lower body _ h
  | .ifThen test yes _, scope, base, h => by
    rw [scopeAfter] at h
    have hscope := h.of_prefix (prefix_scopeAfter scope yes)
    simp only [lower]
    apply isWellFormed_append
    · apply isWellFormed_append (test.isWellFormed_lower hscope)
      exact isWellFormed_single trivial
    · apply isWellFormed_lower yes _ h
  | .ifThenElse test yes no _, scope, base, h => by
    rw [scopeAfter] at h
    have hyes := h.of_prefix (prefix_scopeAfter _ no)
    have hscope := hyes.of_prefix (prefix_scopeAfter scope yes)
    simp only [lower]
    apply isWellFormed_append
    · apply isWellFormed_append
      · apply isWellFormed_append
        · apply isWellFormed_append (test.isWellFormed_lower hscope)
          exact isWellFormed_single trivial
        · apply isWellFormed_lower yes _ hyes
      · exact isWellFormed_single trivial
    · apply isWellFormed_lower no _ h
  | .result none _, scope, base, h => by
    rw [lower]
    exact isWellFormed_single trivial
  | .result (some value) _, scope, base, h => by
    rw [lower]
    apply isWellFormed_append
    · apply value.isWellFormed_lower
      apply h.of_prefix (prefix_scopeAfter scope _)
    · exact isWellFormed_single trivial
  | .declare name value _, scope, base, h => by
    rw [scopeAfter] at h
    obtain ⟨slot, hslot⟩ := scope.exists_slot?_declare name
    rw [lower, hslot]
    apply isWellFormed_append
    · apply value.isWellFormed_lower
      apply h.of_prefix (scope.prefix_declare name)
    · apply h.writeSlot hslot
  | .function .., scope, base, h => by
    rw [lower]
    apply isWellFormed_ofProblem
  | .assign .., scope, base, h => by
    rw [lower]
    apply isWellFormed_lowerAssign
    apply h.of_prefix (prefix_scopeAfter scope _)
  | .forLoop start test update body _, scope, base, h => by
    rw [scopeAfter] at h
    have hbody := h.of_prefix (prefix_scopeAfter _ update)
    have hstart := hbody.of_prefix (prefix_scopeAfter _ body)
    simp only [lower]
    apply isWellFormed_append
    · apply isWellFormed_lower start base hstart
    · apply isWellFormed_loop (test.isWellFormed_lower hstart)
      apply isWellFormed_append
      · apply isWellFormed_lower body _ hbody
      · apply isWellFormed_lower update _ h

/-- The constants of the code of statements are words. -/
theorem Stmt.isWellFormed_lowerAll :
    ∀ (l : List Stmt) {scope : Scope} (base : Nat), (Stmt.scopeAfterAll scope l).IsSmall →
      (Stmt.lowerAll scope base l).IsWellFormed
  | [], scope, base, _ => by
    rintro i ⟨⟩
  | s :: r, scope, base, h => by
    rw [scopeAfterAll] at h
    simp only [lowerAll]
    apply isWellFormed_append
    · apply isWellFormed_lower s base
      apply h.of_prefix (prefix_scopeAfterAll _ r)
    · apply isWellFormed_lowerAll r _ h

end

end Source

end StackMachine
