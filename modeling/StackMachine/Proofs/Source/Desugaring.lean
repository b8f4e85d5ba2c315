import StackMachine.Proofs.Source.Layout
import StackMachine.Source.Walk

/-!
# Counted loops as other statements

A counted loop is its start followed by a loop that executes the update behind the body.  To
write all counted loops of a program in this way, those inside other statements included, does
not change what the program is lowered to.
-/

namespace StackMachine

namespace Source

section

variable (mark : Option Span → Option Span)

mutual

/-- A statement with every counted loop replaced by a block and a loop.  The new statements come
from the stretch of text that `mark` tells for the stretch of the counted loop. -/
def Stmt.desugar : Stmt → Stmt
  | .block body span => .block (desugarAll body) span
  | .whileLoop test body span => .whileLoop test body.desugar span
  | .ifThen test yes span => .ifThen test yes.desugar span
  | .ifThenElse test yes no span => .ifThenElse test yes.desugar no.desugar span
  | .result value span => .result value span
  | .declare name value span => .declare name value span
  | .function name parameters body span => .function name parameters body.desugar span
  | .assign target value span => .assign target value span
  | .forLoop start test update body span =>
    .block [start.desugar,
      .whileLoop test (.block [body.desugar, update.desugar] (mark span)) (mark span)] (mark span)

/-- Statements with every counted loop in them replaced. -/
def Stmt.desugarAll : List Stmt → List Stmt
  | [] => []
  | s :: r => s.desugar :: desugarAll r

end

/-! ### Scopes -/

mutual

/-- A replacement leaves the same scope. -/
theorem Stmt.scopeAfter_desugar :
    ∀ (s : Stmt) (scope : Scope), (s.desugar mark).scopeAfter scope = s.scopeAfter scope
  | .block body _, scope => by
    rw [desugar, scopeAfter, scopeAfter, scopeAfterAll_desugarAll body]
  | .whileLoop _ body _, scope => by
    rw [desugar, scopeAfter, scopeAfter, scopeAfter_desugar body]
  | .ifThen _ yes _, scope => by
    rw [desugar, scopeAfter, scopeAfter, scopeAfter_desugar yes]
  | .ifThenElse _ yes no _, scope => by
    rw [desugar, scopeAfter, scopeAfter, scopeAfter_desugar yes, scopeAfter_desugar no]
  | .result .., scope => by rw [desugar]
  | .declare .., scope => by rw [desugar]
  | .function .., scope => by rw [desugar, scopeAfter, scopeAfter]
  | .assign .., scope => by rw [desugar]
  | .forLoop start _ update body _, scope => by
    simp only [desugar, scopeAfter, scopeAfterAll]
    rw [scopeAfter_desugar start, scopeAfter_desugar body, scopeAfter_desugar update]

theorem Stmt.scopeAfterAll_desugarAll :
    ∀ (l : List Stmt) (scope : Scope),
      Stmt.scopeAfterAll scope (Stmt.desugarAll mark l) = Stmt.scopeAfterAll scope l
  | [], scope => by rw [desugarAll]
  | s :: r, scope => by
    rw [desugarAll, scopeAfterAll, scopeAfterAll, scopeAfter_desugar s,
      scopeAfterAll_desugarAll r]

end

/-! ### Code -/

mutual

/-- A replacement is lowered to the same code, with the same problems. -/
theorem Stmt.lower_desugar :
    ∀ (s : Stmt) (scope : Scope) (base : Nat),
      (s.desugar mark).lower scope base = s.lower scope base
  | .block body _, scope, base => by
    rw [desugar, lower, lower, lowerAll_desugarAll body]
  | .whileLoop _ body _, scope, base => by
    simp only [desugar, lower]
    rw [lower_desugar body]
  | .ifThen _ yes _, scope, base => by
    simp only [desugar, lower]
    rw [lower_desugar yes]
  | .ifThenElse _ yes no _, scope, base => by
    simp only [desugar, lower]
    rw [lower_desugar yes, scopeAfter_desugar, lower_desugar no]
  | .result .., scope, base => by rw [desugar]
  | .declare .., scope, base => by rw [desugar]
  | .function .., scope, base => by rw [desugar, lower, lower]
  | .assign .., scope, base => by rw [desugar]
  | .forLoop start test update body _, scope, base => by
    -- the block begins at the start, and the loop behind it where the counted loop tests
    simp only [desugar, lower, lowerAll_pair]
    rw [lower_desugar start, scopeAfter_desugar, lower_desugar body, scopeAfter_desugar,
      lower_desugar update]

theorem Stmt.lowerAll_desugarAll :
    ∀ (l : List Stmt) (scope : Scope) (base : Nat),
      Stmt.lowerAll scope base (Stmt.desugarAll mark l) = Stmt.lowerAll scope base l
  | [], scope, base => by rw [desugarAll]
  | s :: r, scope, base => by
    simp only [desugarAll, lowerAll]
    rw [lower_desugar s, scopeAfter_desugar, lowerAll_desugarAll r]

end

end

/-! ### Completeness -/

/-- No node that is visited is a counted loop. -/
def LoopFree (visits : List Visit) : Prop := ∀ v ∈ visits, v.node.kind ≠ .forLoop

section

variable {skip : Kind → Bool}

namespace LoopFree

theorem nil :
  LoopFree []
  := List.forall_mem_nil _

theorem append {visits visits' : List Visit} (h : LoopFree visits) (h' : LoopFree visits') :
  LoopFree (visits ++ visits')
  := List.forall_mem_append.mpr ⟨h, h'⟩

/-- A node that is no counted loop is visited, and what is below it unless that is skipped. -/
theorem node {depth : Nat} {n : Node} {visits : List Visit} (hn : n.kind ≠ .forLoop)
    (h : LoopFree visits) :
  LoopFree (⟨depth, n⟩ :: if skip n.kind then [] else visits)
  := by
  rw [LoopFree, List.forall_mem_cons]
  use hn
  split
  · apply nil
  · apply h

end LoopFree

open LoopFree

/-- An expression is no counted loop. -/
theorem Expr.loopFree_node {depth : Nat} {visits : List Visit} (h : LoopFree visits) (e : Expr) :
  LoopFree (⟨depth, .expr e⟩ :: if skip e.kind then [] else visits)
  := by
  have hkind : (Node.expr e).kind ≠ .forLoop := by
    cases e <;> rintro ⟨⟩
  apply LoopFree.node hkind h

mutual

/-- No counted loop is visited in an expression. -/
theorem Expr.loopFree_walk :
    ∀ (e : Expr) (depth : Nat), LoopFree (e.walk skip depth)
  | .name _, depth | .int .., depth | .bool .., depth => by
    rw [walk]
    apply loopFree_node LoopFree.nil
  | .binary _ left right _, depth => by
    rw [walk]
    apply loopFree_node
    apply (loopFree_walk left _).append (loopFree_walk right _)
  | .unary _ operand _, depth => by
    rw [walk]
    apply loopFree_node
    apply loopFree_walk operand
  | .call _ arguments _, depth => by
    rw [walk]
    apply loopFree_node
    apply loopFree_walkAll arguments

theorem Expr.loopFree_walkAll :
    ∀ (l : List Expr) (depth : Nat), LoopFree (Expr.walkAll skip depth l)
  | [], depth => by
    rw [walkAll]
    apply LoopFree.nil
  | e :: r, depth => by
    rw [walkAll]
    apply (loopFree_walk e depth).append (loopFree_walkAll r depth)

end

variable {mark : Option Span → Option Span}

mutual

/-- No counted loop is visited where they have been replaced. -/
theorem Stmt.loopFree_walk_desugar :
    ∀ (s : Stmt) (depth : Nat), LoopFree ((s.desugar mark).walk skip depth)
  | .block body _, depth => by
    rw [desugar, walk]
    apply LoopFree.node (by rintro ⟨⟩)
    apply loopFree_walkAll_desugarAll body
  | .whileLoop test body _, depth => by
    rw [desugar, walk]
    apply LoopFree.node (by rintro ⟨⟩)
    apply (test.loopFree_walk _).append (loopFree_walk_desugar body _)
  | .ifThen test yes _, depth => by
    rw [desugar, walk]
    apply LoopFree.node (by rintro ⟨⟩)
    apply (test.loopFree_walk _).append (loopFree_walk_desugar yes _)
  | .ifThenElse test yes no _, depth => by
    rw [desugar, walk]
    apply LoopFree.node (by rintro ⟨⟩)
    apply LoopFree.append _ (loopFree_walk_desugar no _)
    apply (test.loopFree_walk _).append (loopFree_walk_desugar yes _)
  | .result none _, depth => by
    rw [desugar, walk]
    apply LoopFree.node (by rintro ⟨⟩) LoopFree.nil
  | .result (some value) _, depth => by
    rw [desugar, walk]
    apply LoopFree.node (by rintro ⟨⟩)
    apply value.loopFree_walk
  | .declare _ value _, depth => by
    rw [desugar, walk]
    apply LoopFree.node (by rintro ⟨⟩)
    apply value.loopFree_walk
  | .function _ parameters body _, depth => by
    rw [desugar, walk]
    apply LoopFree.node (by rintro ⟨⟩)
    apply LoopFree.append _ (loopFree_walk_desugar body _)
    rw [LoopFree, List.forall_mem_map]
    rintro n - ⟨⟩
  | .assign target value _, depth => by
    rw [desugar, walk]
    apply LoopFree.node (by rintro ⟨⟩)
    apply (target.loopFree_walk _).append (value.loopFree_walk _)
  | .forLoop start test update body _, depth => by
    simp only [desugar, walk, walkAll]
    apply LoopFree.node (by rintro ⟨⟩)
    apply (loopFree_walk_desugar start _).append
    apply LoopFree.append _ LoopFree.nil
    apply LoopFree.node (by rintro ⟨⟩)
    apply (test.loopFree_walk _).append
    apply LoopFree.node (by rintro ⟨⟩)
    apply (loopFree_walk_desugar body _).append
    apply (loopFree_walk_desugar update _).append LoopFree.nil

theorem Stmt.loopFree_walkAll_desugarAll :
    ∀ (l : List Stmt) (depth : Nat),
      LoopFree (Stmt.walkAll skip depth (Stmt.desugarAll mark l))
  | [], depth => by
    rw [desugarAll, walkAll]
    apply LoopFree.nil
  | s :: r, depth => by
    rw [desugarAll, walkAll]
    apply (loopFree_walk_desugar s depth).append (loopFree_walkAll_desugarAll r depth)

end

end

/-! ### Programs -/

/-- A program without counted loops, each replaced by its start and a loop, is lowered to the same
code or has the same problems in the same order. -/
theorem lower_desugarAll (mark : Option Span → Option Span) (statements : List Stmt) :
  lower (Stmt.desugarAll mark statements) = lower statements
    ∧ LoopFree (Stmt.walkAll (fun _ => false) 0 (Stmt.desugarAll mark statements))
  := by
  constructor
  · rw [lower, lower, Stmt.lowerAll_desugarAll]
  · apply Stmt.loopFree_walkAll_desugarAll

end Source

end StackMachine
