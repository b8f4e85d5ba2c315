import Mathlib.Data.Set.Function
import StackMachine.Proofs.Source.Slots

/-!
# Renaming

A renaming that keeps the names of a program apart does not change the code, and a program that
cannot be lowered has the same problems with the new names in place of the old ones.
-/

namespace StackMachine

namespace Source

/-! ### Names -/

mutual

/-- The names in an expression, those of functions included. -/
def Expr.names : Expr → List Text
  | .name n => [n.text]
  | .int .. => []
  | .bool .. => []
  | .binary _ left right _ => left.names ++ right.names
  | .unary _ operand _ => operand.names
  | .call function arguments _ => function :: namesAll arguments

/-- The names in expressions. -/
def Expr.namesAll : List Expr → List Text
  | [] => []
  | e :: r => e.names ++ namesAll r

end

mutual

/-- The names in a statement. -/
def Stmt.names : Stmt → List Text
  | .block body _ => namesAll body
  | .whileLoop test body _ => test.names ++ body.names
  | .ifThen test yes _ => test.names ++ yes.names
  | .ifThenElse test yes no _ => test.names ++ yes.names ++ no.names
  | .result none _ => []
  | .result (some value) _ => value.names
  | .declare name value _ => name :: value.names
  | .function name parameters body _ => name :: parameters.map Name.text ++ body.names
  | .assign target value _ => target.names ++ value.names
  | .forLoop start test update body _ =>
    start.names ++ test.names ++ update.names ++ body.names

/-- The names in statements. -/
def Stmt.namesAll : List Stmt → List Text
  | [] => []
  | s :: r => s.names ++ namesAll r

end

section

variable (f : Text → Text)

/-- The place where a name is used, with its new name. -/
def Name.rename (n : Name) : Name := { n with text := f n.text }

mutual

/-- An expression with new names. -/
def Expr.rename : Expr → Expr
  | .name n => .name (n.rename f)
  | .int value span => .int value span
  | .bool value span => .bool value span
  | .binary op left right span => .binary op left.rename right.rename span
  | .unary op operand span => .unary op operand.rename span
  | .call function arguments span => .call (f function) (renameAll arguments) span

/-- Expressions with new names. -/
def Expr.renameAll : List Expr → List Expr
  | [] => []
  | e :: r => e.rename :: renameAll r

end

mutual

/-- A statement with new names. -/
def Stmt.rename : Stmt → Stmt
  | .block body span => .block (renameAll body) span
  | .whileLoop test body span => .whileLoop (test.rename f) body.rename span
  | .ifThen test yes span => .ifThen (test.rename f) yes.rename span
  | .ifThenElse test yes no span => .ifThenElse (test.rename f) yes.rename no.rename span
  | .result none span => .result none span
  | .result (some value) span => .result (some (value.rename f)) span
  | .declare name value span => .declare (f name) (value.rename f) span
  | .function name parameters body span =>
    .function (f name) (parameters.map (Name.rename f)) body.rename span
  | .assign target value span => .assign (target.rename f) (value.rename f) span
  | .forLoop start test update body span =>
    .forLoop start.rename (test.rename f) update.rename body.rename span

/-- Statements with new names. -/
def Stmt.renameAll : List Stmt → List Stmt
  | [] => []
  | s :: r => s.rename :: renameAll r

end

/-- A problem with new names. -/
def Problem.rename : Problem → Problem
  | assignment kind span => assignment kind span
  | function name span => function (f name) span
  | call name span => call (f name) span
  | literalRange value span => literalRange value span
  | unbound n => unbound (n.rename f)

/-- A piece with new names in its problems. -/
def Piece.rename (p : Piece) : Piece := ⟨p.code, p.problems.map (Problem.rename f)⟩

namespace Piece

variable {f}

theorem rename_append (p q : Piece) :
  (p ++ q).rename f = p.rename f ++ q.rename f
  := congrArg (Piece.mk (p.code ++ q.code)) List.map_append

theorem rename_ofCode (code : Code) :
  (ofCode code).rename f = ofCode code
  := rfl

theorem rename_ofProblem (p : Problem) :
  (ofProblem p).rename f = ofProblem (p.rename f)
  := rfl

@[simp]
theorem rename_code (p : Piece) :
  (p.rename f).code = p.code
  := rfl

theorem rename_loop (base : Nat) (test body : Piece) :
  (loop base test body).rename f = loop base (test.rename f) (body.rename f)
  := by
  simp only [loop, rename_append, rename_ofCode, rename_code]

end Piece

end

/-! ### Scopes -/

mutual

/-- A statement with new names declares the new names. -/
theorem Stmt.declared_rename (f : Text → Text) :
    ∀ s : Stmt, (s.rename f).declared = s.declared.map f
  | .block body _ => by
    rw [rename, declared, declared, declaredAll_renameAll f body]
  | .whileLoop _ body _ => by
    rw [rename, declared, declared, declared_rename f body]
  | .ifThen _ yes _ => by
    rw [rename, declared, declared, declared_rename f yes]
  | .ifThenElse _ yes no _ => by
    rw [rename, declared, declared, declared_rename f yes, declared_rename f no, List.map_append]
  | .result none _ => by
    rw [rename, declared]
    rfl
  | .result (some _) _ => by
    rw [rename, declared, declared]
    rfl
  | .declare .. => by
    rw [rename, declared, declared]
    rfl
  | .function .. => by
    rw [rename, declared, declared]
    rfl
  | .assign .. => by
    rw [rename, declared, declared]
    rfl
  | .forLoop start _ update body _ => by
    rw [rename, declared, declared, declared_rename f start, declared_rename f update,
      declared_rename f body, List.map_append, List.map_append]

theorem Stmt.declaredAll_renameAll (f : Text → Text) :
    ∀ l : List Stmt, Stmt.declaredAll (Stmt.renameAll f l) = (Stmt.declaredAll l).map f
  | [] => by
    rw [renameAll, declaredAll]
    rfl
  | s :: r => by
    rw [renameAll, declaredAll, declaredAll, declared_rename f s, declaredAll_renameAll f r,
      List.map_append]

end

mutual

/-- The declared names are names of the statement. -/
theorem Stmt.mem_names_of_declared {x : Text} :
    ∀ s : Stmt, x ∈ s.declared → x ∈ s.names
  | .block body _, h => by
    rw [declared] at h
    rw [names]
    apply mem_namesAll_of_declaredAll body h
  | .whileLoop _ body _, h => by
    rw [declared] at h
    rw [names]
    apply List.mem_append_right _ (mem_names_of_declared body h)
  | .ifThen _ yes _, h => by
    rw [declared] at h
    rw [names]
    apply List.mem_append_right _ (mem_names_of_declared yes h)
  | .ifThenElse _ yes no _, h => by
    rw [declared] at h
    rw [names, List.append_assoc]
    apply List.mem_append_right
    apply List.mem_append.mpr
    apply (List.mem_append.mp h).imp (mem_names_of_declared yes) (mem_names_of_declared no)
  | .result .., h => by
    rw [declared] at h
    cases h
  | .declare .., h => by
    rw [declared] at h
    rw [names, List.mem_singleton.mp h]
    apply List.mem_cons_self
  | .function .., h => by
    rw [declared] at h
    cases h
  | .assign .., h => by
    rw [declared] at h
    cases h
  | .forLoop start _ update body _, h => by
    rw [declared] at h
    rw [names]
    simp only [List.mem_append] at h ⊢
    rcases h with (h | h) | h
    · exact .inl (.inl (.inl (mem_names_of_declared start h)))
    · exact .inr (mem_names_of_declared body h)
    · exact .inl (.inr (mem_names_of_declared update h))

theorem Stmt.mem_namesAll_of_declaredAll {x : Text} :
    ∀ l : List Stmt, x ∈ Stmt.declaredAll l → x ∈ Stmt.namesAll l
  | [], h => by
    rw [declaredAll] at h
    cases h
  | s :: r, h => by
    rw [declaredAll] at h
    rw [namesAll]
    apply List.mem_append.mpr
    apply (List.mem_append.mp h).imp (mem_names_of_declared s) (mem_namesAll_of_declaredAll r)

end

variable {f : Text → Text} {known : Set Text}

/-- All the names in a list are in a set, in which a renaming is going to keep names apart. -/
def Known (known : Set Text) (names : List Text) : Prop := ∀ x ∈ names, x ∈ known

theorem known_append {names names' : List Text} :
  Known known (names ++ names') ↔ Known known names ∧ Known known names'
  := List.forall_mem_append

namespace Scope

theorem known_declare {scope : Scope} (hscope : Known known scope) {x : Text} (hx : x ∈ known) :
  Known known (scope.declare x)
  := by
  intro y hy
  rcases mem_declare.mp hy with hy | rfl
  · apply hscope y hy
  · apply hx

variable (hf : Set.InjOn f known)

include hf

/-- A name has the slot in a scope that its new name has among the new names. -/
theorem slot?_map {scope : Scope} (hscope : Known known scope) {x : Text} (hx : x ∈ known) :
  slot? (scope.map f) (f x) = scope.slot? x
  := by
  induction scope with
  | nil => rfl
  | cons y scope ih =>
    obtain ⟨hy, hscope⟩ := List.forall_mem_cons.mp hscope
    have heq : (f y == f x) = (y == x) := by
      rw [Bool.eq_iff_iff, beq_iff_eq, beq_iff_eq]
      apply hf.eq_iff hy hx
    have ih : List.idxOf? (f x) (scope.map f) = List.idxOf? x scope := ih hscope
    rw [slot?, slot?, List.map_cons, List.idxOf?_cons, List.idxOf?_cons, heq, ih]

theorem declare_map {scope : Scope} (hscope : Known known scope) {x : Text} (hx : x ∈ known) :
  declare (scope.map f) (f x) = (scope.declare x).map f
  := by
  by_cases hmem : x ∈ scope
  · rw [declare_of_mem hmem, declare_of_mem (List.mem_map_of_mem hmem)]
  · have hmem' : f x ∉ scope.map f := by
      intro h
      obtain ⟨y, hy, hyx⟩ := List.mem_map.mp h
      rw [hf (hscope y hy) hx hyx] at hy
      apply hmem hy
    rw [declare_of_not_mem hmem, declare_of_not_mem hmem', List.map_append]
    rfl

theorem declareAll_map {scope : Scope} (hscope : Known known scope) {names : List Text}
    (hnames : Known known names) :
  declareAll (scope.map f) (names.map f) = (scope.declareAll names).map f
  := by
  induction names generalizing scope with
  | nil => rfl
  | cons x names ih =>
    obtain ⟨hx, hnames⟩ := List.forall_mem_cons.mp hnames
    change declareAll (declare (scope.map f) (f x)) (names.map f) = _
    rw [declare_map hf hscope hx]
    apply ih (known_declare hscope hx) hnames

end Scope

/-- The scope after a statement holds known names. -/
theorem Stmt.known_scopeAfter {scope : Scope} (hscope : Known known scope) {s : Stmt}
    (hs : Known known s.names) :
  Known known (s.scopeAfter scope)
  := by
  rw [scopeAfter_eq]
  intro x hx
  rcases Scope.mem_declareAll.mp hx with hx | hx
  · apply hscope x hx
  · apply hs x (s.mem_names_of_declared hx)

section

variable (hf : Set.InjOn f known)

include hf

/-- The scope after a statement with new names holds the new names. -/
theorem Stmt.scopeAfter_rename {scope : Scope} (hscope : Known known scope) {s : Stmt}
    (hs : Known known s.names) :
  (s.rename f).scopeAfter (scope.map f) = (s.scopeAfter scope).map f
  := by
  rw [scopeAfter_eq, scopeAfter_eq, declared_rename]
  apply Scope.declareAll_map hf hscope
  intro x hx
  apply hs x (s.mem_names_of_declared hx)

/-! ### Lowered code -/

/-- A name is looked up as its new name is. -/
theorem Name.slot_rename {scope : Scope} (hscope : Known known scope) {n : Name}
    (hn : n.text ∈ known) :
  (n.rename f).slot (scope.map f) = (n.slot scope).mapError (Problem.rename f)
  := by
  have h : Scope.slot? (scope.map f) (n.rename f).text = scope.slot? n.text :=
    Scope.slot?_map hf hscope hn
  rw [slot, slot, h]
  cases scope.slot? n.text with
  | some slot => rfl
  | none => rfl

/-- An expression with new names is lowered to the same code. -/
theorem Expr.lower_rename {scope : Scope} (hscope : Known known scope) :
    ∀ e : Expr, Known known e.names →
      (e.rename f).lower (scope.map f) = (e.lower scope).rename f
  | .name n, h => by
    have hn : n.text ∈ known := h n.text (List.mem_singleton_self _)
    rw [rename, lower, lower, n.slot_rename hf hscope hn]
    cases n.slot scope with
    | ok slot => rfl
    | error p => rfl
  | .int value span, _ => by
    rw [rename, lower, lower]
    split
    · rfl
    · rfl
  | .bool .., _ => by
    rw [rename, lower, lower, Piece.rename_ofCode]
  | .binary op left right _, h => by
    rw [names, known_append] at h
    rw [rename, lower, lower, Piece.rename_append, Piece.rename_append, Piece.rename_ofCode,
      lower_rename hscope left h.1, lower_rename hscope right h.2]
  | .unary op operand _, h => by
    rw [names] at h
    rw [rename, lower, lower, Piece.rename_append, Piece.rename_ofCode,
      lower_rename hscope operand h]
  | .call .., _ => by
    rw [rename, lower, lower, Piece.rename_ofProblem, Problem.rename]

/-- An assignment with new names is lowered to the same code. -/
theorem lowerAssign_rename {scope : Scope} (hscope : Known known scope) {target value : Expr}
    (htarget : Known known target.names) (hvalue : Known known value.names)
    (span : Option Span) :
  lowerAssign (scope.map f) (target.rename f) (value.rename f) span
    = (lowerAssign scope target value span).rename f
  := by
  cases target with
  | name n =>
    have hn : n.text ∈ known := htarget n.text (List.mem_singleton_self _)
    have hlower := value.lower_rename hf hscope hvalue
    rw [Expr.rename, lowerAssign, lowerAssign, n.slot_rename hf hscope hn]
    cases n.slot scope with
    | ok slot =>
      simp only [Except.mapError, Piece.rename_append, hlower]
      rfl
    | error p =>
      simp only [Except.mapError, Piece.rename_append, hlower]
      rfl
  | int | bool | binary | unary | call =>
    rw [Expr.rename]
    rfl

mutual

/-- A statement with new names is lowered to the same code. -/
theorem Stmt.lower_rename :
    ∀ (s : Stmt) {scope : Scope} (base : Nat), Known known scope → Known known s.names →
      (s.rename f).lower (scope.map f) base = (s.lower scope base).rename f
  | .block body _, scope, base, hscope, h => by
    rw [names] at h
    rw [rename, lower, lower, lowerAll_renameAll body base hscope h]
  | .whileLoop test body _, scope, base, hscope, h => by
    rw [names, known_append] at h
    simp only [rename, lower]
    rw [Piece.rename_loop, test.lower_rename hf hscope h.1, Piece.rename_code,
      lower_rename body _ hscope h.2]
  | .ifThen test yes _, scope, base, hscope, h => by
    rw [names, known_append] at h
    simp only [rename, lower, Piece.rename_append, Piece.rename_ofCode,
      test.lower_rename hf hscope h.1, Piece.rename_code, lower_rename yes _ hscope h.2]
  | .ifThenElse test yes no _, scope, base, hscope, h => by
    rw [names, known_append, known_append] at h
    obtain ⟨⟨htest, hyes⟩, hno⟩ := h
    have hscope' := known_scopeAfter hscope hyes
    simp only [rename, lower, Piece.rename_append, Piece.rename_ofCode,
      test.lower_rename hf hscope htest, Piece.rename_code, lower_rename yes _ hscope hyes,
      scopeAfter_rename hf hscope hyes, lower_rename no _ hscope' hno]
  | .result none _, scope, base, hscope, h => by
    rw [rename, lower, lower, Piece.rename_ofCode]
  | .result (some value) _, scope, base, hscope, h => by
    rw [names] at h
    rw [rename, lower, lower, Piece.rename_append, Piece.rename_ofCode,
      value.lower_rename hf hscope h]
  | .declare name value _, scope, base, hscope, h => by
    rw [names] at h
    obtain ⟨hname, hvalue⟩ := List.forall_mem_cons.mp h
    have hslot : Scope.slot? (Scope.declare (scope.map f) (f name)) (f name)
        = (scope.declare name).slot? name := by
      rw [Scope.declare_map hf hscope hname]
      apply Scope.slot?_map hf (Scope.known_declare hscope hname) hname
    rw [rename, lower, lower, hslot, Piece.rename_append, Piece.rename_ofCode,
      value.lower_rename hf hscope hvalue]
  | .function .., scope, base, hscope, h => by
    rw [rename, lower, lower, Piece.rename_ofProblem, Problem.rename]
  | .assign target value span, scope, base, hscope, h => by
    rw [names, known_append] at h
    rw [rename, lower, lower, lowerAssign_rename hf hscope h.1 h.2]
  | .forLoop start test update body _, scope, base, hscope, h => by
    rw [names, known_append, known_append, known_append] at h
    obtain ⟨⟨⟨hstart, htest⟩, hupdate⟩, hbody⟩ := h
    have hinner := known_scopeAfter hscope hstart
    have hlast := known_scopeAfter hinner hbody
    simp only [rename, lower, Piece.rename_append, Piece.rename_loop, Piece.rename_code,
      lower_rename start base hscope hstart, scopeAfter_rename hf hscope hstart,
      test.lower_rename hf hinner htest, lower_rename body _ hinner hbody,
      scopeAfter_rename hf hinner hbody, lower_rename update _ hlast hupdate]

/-- Statements with new names are lowered to the same code. -/
theorem Stmt.lowerAll_renameAll :
    ∀ (l : List Stmt) {scope : Scope} (base : Nat), Known known scope →
      Known known (Stmt.namesAll l) →
        Stmt.lowerAll (scope.map f) base (Stmt.renameAll f l)
          = (Stmt.lowerAll scope base l).rename f
  | [], scope, base, _, _ => by
    rw [renameAll, lowerAll]
    rfl
  | s :: r, scope, base, hscope, h => by
    rw [namesAll, known_append] at h
    have hrest := known_scopeAfter hscope h.1
    simp only [renameAll, lowerAll, Piece.rename_append, Piece.rename_code,
      lower_rename s base hscope h.1, scopeAfter_rename hf hscope h.1,
      lowerAll_renameAll r _ hrest h.2]

end

end

/-! ### Programs -/

/-- A program with new names is lowered to the same code, or has the same problems with the new
names. -/
theorem lower_renameAll_eq {statements : List Stmt}
    (h : Set.InjOn f {x | x ∈ Stmt.namesAll statements}) :
  lower (Stmt.renameAll f statements)
    = (lower statements).mapError (List.map (Problem.rename f))
  := by
  have hnone : Known {x | x ∈ Stmt.namesAll statements} [] := List.forall_mem_nil _
  have hlower := Stmt.lowerAll_renameAll h statements 0 hnone fun _ hx => hx
  rw [List.map_nil] at hlower
  rw [lower, lower, hlower]
  rcases Stmt.lowerAll [] 0 statements with ⟨code, problems⟩
  cases problems with
  | nil | cons => rfl

/-- The code of the diagnostic of a problem, and the stretch of text that it points to. -/
def Problem.place (p : Problem) : Text × Option Span := (p.diagnostic.code, p.diagnostic.span)

theorem Problem.place_rename (p : Problem) :
  (p.rename f).place = p.place
  := by
  cases p <;> rfl

/-- Names do not matter to lowering as long as they are kept apart: the code is the same, or the
diagnostics have the same codes and point to the same text.  Lowered code uses the variables of
the source in order, each at the slot of its name and in no other way.  The slots are those of
the declared names, numbered in the order of their first declarations; a name has one of them,
and different names have different ones. -/
theorem lower_renameAll {statements : List Stmt}
    (h : Set.InjOn f {x | x ∈ Stmt.namesAll statements}) :
  (lower (Stmt.renameAll f statements)).mapError (List.map Problem.place)
      = (lower statements).mapError (List.map Problem.place)
    ∧ (∀ code, lower statements = .ok code →
      Accesses (HasSlot (Stmt.declaredAll statements)) code (Stmt.accessesAll statements))
    ∧ (∀ slot, (∃ a ∈ Stmt.accessesAll statements,
        HasSlot (Stmt.declaredAll statements) a.name slot)
      ↔ slot < (Stmt.declaredAll statements).dedup.length)
    ∧ (∀ x slot slot', HasSlot (Stmt.declaredAll statements) x slot →
      HasSlot (Stmt.declaredAll statements) x slot' → slot = slot')
    ∧ ∀ x y slot, HasSlot (Stmt.declaredAll statements) x slot →
      HasSlot (Stmt.declaredAll statements) y slot → x = y
  := by
  refine ⟨?_, ?_, ?_, ?_, ?_⟩
  · rw [lower_renameAll_eq h]
    cases lower statements with
    | ok code => rfl
    | error problems =>
      simp only [Except.mapError, List.map_map]
      congr 2
      funext p
      apply p.place_rename
  · intro code hcode
    apply accesses_lower hcode
  · intro slot
    apply exists_access_iff
  · intro x slot slot' hslot hslot'
    apply hslot.unique hslot'
  · intro x y slot hx hy
    apply hx.injective hy

/-- The names `x` and `y` exchanged, and all others forgotten. -/
def exchange (x : Text) : Text := if x = "x" then "y" else if x = "y" then "x" else []

/-- A program that declares `x` again behind `y`. -/
def redeclared : List Stmt :=
  [.declare "x" (.int 1 none) none, .declare "y" (.name { text := "x" }) none,
    .declare "x" (.name { text := "y" }) none, .result (some (.name { text := "x" })) none]

/-- Exchanging the two names of a program does not change its code, which uses two slots. -/
theorem lower_renameAll_exchange :
  Set.InjOn exchange {x | x ∈ Stmt.namesAll redeclared}
    ∧ lower (Stmt.renameAll exchange redeclared) = lower redeclared
    ∧ ∃ code, lower redeclared = .ok code
      ∧ Accesses (HasSlot (Stmt.declaredAll redeclared)) code
        [.write "x", .read "x", .write "y", .read "y", .write "x", .read "x"]
      ∧ ∃ a ∈ Stmt.accessesAll redeclared, HasSlot (Stmt.declaredAll redeclared) a.name 1
  := by
  have hnames : ∀ x ∈ Stmt.namesAll redeclared, x = "x" ∨ x = "y" := by decide
  have h : Set.InjOn exchange {x | x ∈ Stmt.namesAll redeclared} := by
    intro x hx y hy hxy
    rcases hnames x hx with rfl | rfl
    · rcases hnames y hy with rfl | rfl
      · rfl
      · revert hxy
        decide
    · rcases hnames y hy with rfl | rfl
      · revert hxy
        decide
      · rfl
  have hcode : lower redeclared = .ok _ := rfl
  obtain ⟨hsame, haccesses, hslots, -⟩ := lower_renameAll h
  refine ⟨h, ?_, _, hcode, haccesses _ hcode, ?_⟩
  · cases hlower : lower (Stmt.renameAll exchange redeclared) with
    | ok code =>
      rw [hlower, hcode] at hsame
      cases hsame
      rfl
    | error problems =>
      rw [hlower, hcode] at hsame
      cases hsame
  · apply (hslots 1).mpr
    decide

end Source

end StackMachine
