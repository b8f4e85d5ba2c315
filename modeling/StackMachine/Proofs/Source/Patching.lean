import StackMachine.Proofs.Source.Slots

/-!
# Lowering with placeholders

Code can also be emitted one instruction after another.  Where a jump goes forward its target is
not yet known, so that a placeholder is emitted, which is patched when the target is reached.
Patching fails if there is no jump to be patched.  It never does, and the code with all its
targets is that of lowering, whether the source has problems or not.
-/

namespace StackMachine

namespace Source

/-! ### Emission -/

/-- What has been emitted: the code and the problems, and the scope. -/
structure Emission where
  code : Code
  problems : List Problem
  scope : Scope

/-- An instruction that is to be patched is missing or no jump. -/
structure NoJump where
  position : Nat

namespace Emission

/-- Nothing is emitted before the first statement. -/
def start : Emission := ⟨[], [], []⟩

/-- The position of the next instruction. -/
def next (e : Emission) : Nat := e.code.length

/-- The emission of instructions. -/
def emit (code : Code) (e : Emission) : Emission := { e with code := e.code ++ code }

/-- The report of a problem. -/
def report (p : Problem) (e : Emission) : Emission := { e with problems := e.problems ++ [p] }

/-- The slot of a name that is declared: its own if it has one, and else a new one. -/
def declare (name : Text) (e : Emission) : Nat × Emission :=
  match e.scope.slot? name with
  | some slot => (slot, e)
  | none => (e.scope.length, { e with scope := e.scope ++ [name] })

/-- The jump at a position, whatever its target is, is made to lead to the next instruction. -/
def patch (position : Nat) (e : Emission) : Except NoJump Emission :=
  match e.code[position]? with
  | some (.jump _) => .ok { e with code := e.code.set position (.jump e.next) }
  | some (.jumpz _) => .ok { e with code := e.code.set position (.jumpz e.next) }
  | _ => .error ⟨position⟩

end Emission

/-- The emission of an expression. -/
def Expr.emit : Expr → Emission → Emission
  | .name n, e =>
    match n.slot e.scope with
    | .ok slot => e.emit (readSlot slot)
    | .error p => e.report p
  | .int value span, e =>
    if Word.IsWord value then e.emit [.loadc value] else e.report (.literalRange value span)
  | .bool value _, e => e.emit [.loadc (truth value)]
  | .binary op left right _, e => (right.emit (left.emit e)).emit [.binary op]
  | .unary op operand _, e => (operand.emit e).emit [.unary op]
  | .call function _ span, e => e.report (.call function span)

/-- The emission of an assignment: the name is looked up before the value is emitted. -/
def emitAssign (target value : Expr) (span : Option Span) (e : Emission) : Emission :=
  match target with
  | .name n =>
    match n.slot e.scope with
    | .ok slot => (value.emit e).emit (writeSlot slot)
    | .error p => value.emit (e.report p)
  | t => e.report (.assignment t.kind (t.span <|> span))

mutual

/-- The emission of a statement. -/
def Stmt.emit : Stmt → Emission → Except NoJump Emission
  | .block body _, e => emitAll body e
  | .whileLoop test body _, e => do
    let top := e.next
    let e := test.emit e
    let exit := e.next
    let e ← body.emit (e.emit [.jumpz 0])
    (e.emit [.jump top]).patch exit
  | .ifThen test yes _, e => do
    let e := test.emit e
    let skip := e.next
    let e ← yes.emit (e.emit [.jumpz 0])
    e.patch skip
  | .ifThenElse test yes no _, e => do
    let e := test.emit e
    let skipYes := e.next
    let e ← yes.emit (e.emit [.jumpz 0])
    let skipNo := e.next
    let e ← (e.emit [.jump 0]).patch skipYes
    let e ← no.emit e
    e.patch skipNo
  | .result none _, e => .ok (e.emit [.halt])
  | .result (some value) _, e => .ok ((value.emit e).emit [.halt])
  | .declare name value _, e =>
    let (slot, e) := (value.emit e).declare name
    .ok (e.emit (writeSlot slot))
  | .function name _ _ span, e => .ok (e.report (.function name span))
  | .assign target value span, e => .ok (emitAssign target value span e)
  | .forLoop start test update body _, e => do
    let e ← start.emit e
    let top := e.next
    let e := test.emit e
    let exit := e.next
    let e ← body.emit (e.emit [.jumpz 0])
    let e ← update.emit e
    (e.emit [.jump top]).patch exit

/-- The emission of statements one after another. -/
def Stmt.emitAll : List Stmt → Emission → Except NoJump Emission
  | [], e => .ok e
  | s :: r, e => do
    let e ← s.emit e
    emitAll r e

end

/-- The code of a program, or its problems, as they are emitted. -/
def emitProgram (statements : List Stmt) : Except NoJump (Except (List Problem) Code) := do
  let e ← Stmt.emitAll statements .start
  let e := e.emit [.halt]
  return match e.problems with
    | [] => .ok e.code
    | problems => .error problems

/-! ### Emission of pieces -/

theorem Piece.append_assoc (p q r : Piece) :
  p ++ q ++ r = p ++ (q ++ r)
  := by
  change append (append p q) r = append p (append q r)
  simp only [append, List.append_assoc]

theorem Piece.length_append_single (p : Piece) (i : Instruction Nat) :
  (p ++ ofCode [i]).code.length = p.code.length + 1
  := List.length_append

namespace Emission

/-- What has been emitted after a piece, which leaves a scope. -/
def extend (e : Emission) (p : Piece) (scope : Scope) : Emission :=
  ⟨e.code ++ p.code, e.problems ++ p.problems, scope⟩

variable (e : Emission) (p q : Piece) (scope scope' : Scope)

theorem extend_extend :
  (e.extend p scope).extend q scope' = e.extend (p ++ q) scope'
  := by
  simp only [extend, List.append_assoc, Piece.append_code, Piece.append_problems]

@[simp]
theorem scope_extend :
  (e.extend p scope).scope = scope
  := rfl

@[simp]
theorem next_extend :
  (e.extend p scope).next = e.next + p.code.length
  := List.length_append

@[simp]
theorem scope_emit (code : Code) :
  (e.emit code).scope = e.scope
  := rfl

@[simp]
theorem next_emit_single (i : Instruction Nat) :
  (e.emit [i]).next = e.next + 1
  := List.length_append

theorem emit_eq (code : Code) :
  e.emit code = e.extend (.ofCode code) e.scope
  := by
  simp only [emit, extend, Piece.ofCode, List.append_nil]

theorem report_eq (p : Problem) :
  e.report p = e.extend (.ofProblem p) e.scope
  := by
  simp only [report, extend, Piece.ofProblem, List.append_nil]

theorem emit_extend (code : Code) :
  (e.extend p scope).emit code = e.extend (p ++ .ofCode code) scope
  := by
  rw [emit_eq, extend_extend, scope_extend]

/-- A declared name has the slot of the scope after the declaration. -/
theorem declare_eq (name : Text) :
  e.declare name
    = (((e.scope.declare name).slot? name).getD 0, { e with scope := e.scope.declare name })
  := by
  rw [declare]
  cases hslot : e.scope.slot? name with
  | some slot =>
    have hmem := List.mem_of_getElem? (Scope.getElem?_of_slot? hslot)
    rw [Scope.declare_of_mem hmem, hslot]
    rfl
  | none =>
    have hmem : name ∉ e.scope := List.idxOf?_eq_none_iff.mp hslot
    rw [Scope.slot?_declare_of_not_mem hmem, Scope.declare_of_not_mem hmem]
    rfl

/-! ### Patches -/

/-- A jump behind a piece is patched after another piece has followed: it leads behind that. -/
theorem patch_extend {i : Instruction Nat} {t target : Nat} (hi : i.target? = some t)
    (htarget : target = e.next + p.code.length + q.code.length + 1) :
  (e.extend (p ++ .ofCode [i] ++ q) scope).patch (e.next + p.code.length)
    = .ok (e.extend (p ++ .ofCode [i.map fun _ => target] ++ q) scope)
  := by
  have hcode : (e.extend (p ++ .ofCode [i] ++ q) scope).code
      = (e.code ++ p.code) ++ i :: q.code := by
    simp only [extend, Piece.ofCode, Piece.append_code, List.append_assoc, List.singleton_append]
  have hposition : e.next + p.code.length = (e.code ++ p.code).length := List.length_append.symm
  have hnext : (e.extend (p ++ .ofCode [i] ++ q) scope).next = target := by
    rw [htarget, next_extend, Piece.append_code, List.length_append, Piece.length_append_single]
    omega
  have hget : ((e.code ++ p.code) ++ i :: q.code)[(e.code ++ p.code).length]? = some i := by
    simp
  rw [patch, hnext, hcode, hposition, hget]
  cases i with
  | jump | jumpz => simp [extend, Piece.ofCode, Instruction.map]
  | loadc | load | store | pop | new | halt | binary | unary => cases hi

/-- The same if a jump follows that is not patched, or not yet. -/
theorem patch_extend_emit {i : Instruction Nat} {t target : Nat} (hi : i.target? = some t)
    (htarget : target = e.next + p.code.length + q.code.length + 2) (j : Instruction Nat) :
  (e.extend (p ++ .ofCode [i] ++ q ++ .ofCode [j]) scope).patch (e.next + p.code.length)
    = .ok (e.extend (p ++ .ofCode [i.map fun _ => target] ++ q ++ .ofCode [j]) scope)
  := by
  rw [Piece.append_assoc _ q, Piece.append_assoc _ q]
  apply patch_extend e p _ scope hi
  rw [htarget, Piece.length_append_single]
  rfl

/-- The placeholder behind a test is patched behind the jump that closes a loop. -/
theorem patch_loop (test body : Piece) :
  ((((e.extend test scope).emit [.jumpz 0]).extend body scope').emit [.jump e.next]).patch
      (e.next + test.code.length)
    = .ok (e.extend (loop e.next test body) scope')
  := by
  rw [e.emit_extend test, extend_extend, emit_extend]
  apply patch_extend_emit e test body scope' rfl rfl

/-- The branch that is not taken if a test is not zero begins two instructions, the jumps, behind
the test and the other branch. -/
theorem next_extend_branches (test yes : Piece) (i j : Instruction Nat) :
  (e.extend (test ++ .ofCode [i] ++ yes ++ .ofCode [j]) scope).next
    = e.next + test.code.length + yes.code.length + 2
  := by
  rw [next_extend, Piece.length_append_single, Piece.append_code, List.length_append,
    Piece.length_append_single]
  omega

/-- The placeholder between two branches is patched behind the second. -/
theorem patch_between_branches (test yes no : Piece) (i : Instruction Nat) {target : Nat}
    (htarget : target = e.next + test.code.length + yes.code.length + 2 + no.code.length) :
  ((e.extend (test ++ .ofCode [i] ++ yes ++ .ofCode [.jump 0]) scope).extend no scope').patch
      (e.next + test.code.length + 1 + yes.code.length)
    = .ok (e.extend (test ++ .ofCode [i] ++ yes ++ .ofCode [.jump target] ++ no) scope')
  := by
  have hlength : (test ++ .ofCode [i] ++ yes).code.length
      = test.code.length + 1 + yes.code.length := by
    rw [Piece.append_code, List.length_append, Piece.length_append_single]
  have hposition : e.next + test.code.length + 1 + yes.code.length
      = e.next + (test ++ .ofCode [i] ++ yes).code.length := by
    rw [hlength]
    omega
  rw [extend_extend, hposition]
  apply patch_extend e _ no scope' rfl
  rw [hlength, htarget]
  omega

end Emission

open Emission

theorem ok_bind {ε α β : Type} (a : α) (f : α → Except ε β) :
  (Except.ok a >>= f) = f a
  := rfl

/-! ### Statements -/

/-- An expression is emitted as it is lowered. -/
theorem Expr.emit_eq :
    ∀ (expr : Expr) (e : Emission), expr.emit e = e.extend (expr.lower e.scope) e.scope
  | .name n, e => by
    rw [emit, lower]
    cases n.slot e.scope with
    | ok slot => apply Emission.emit_eq
    | error p => apply report_eq
  | .int value span, e => by
    rw [emit, lower]
    split
    · apply Emission.emit_eq
    · apply report_eq
  | .bool .., e => by
    rw [emit, lower]
    apply Emission.emit_eq
  | .binary _ left right _, e => by
    rw [emit, lower, emit_eq left, emit_eq right, extend_extend, emit_extend, scope_extend]
  | .unary _ operand _, e => by
    rw [emit, lower, emit_eq operand, emit_extend]
  | .call .., e => by
    rw [emit, lower]
    apply report_eq

/-- An assignment is emitted as it is lowered. -/
theorem emitAssign_eq (target value : Expr) (span : Option Span) (e : Emission) :
  emitAssign target value span e
    = e.extend (lowerAssign e.scope target value span) e.scope
  := by
  cases target with
  | name n =>
    rw [emitAssign, lowerAssign]
    cases n.slot e.scope with
    | ok slot =>
      change (value.emit e).emit (writeSlot slot) = _
      rw [value.emit_eq, emit_extend]
    | error p =>
      change value.emit (e.report p) = _
      rw [value.emit_eq, report_eq, extend_extend, scope_extend]
  | int | bool | binary | unary | call => apply report_eq

mutual

/-- A statement is emitted as it is lowered: every jump that is to be patched is there. -/
theorem Stmt.emit_eq :
    ∀ (s : Stmt) (e : Emission),
      s.emit e = .ok (e.extend (s.lower e.scope e.next) (s.scopeAfter e.scope))
  | .block body _, e => by
    rw [emit, lower, scopeAfter, emitAll_eq body]
  | .whileLoop test body _, e => by
    simp only [emit, lower, scopeAfter, test.emit_eq, emit_eq body, ok_bind, scope_emit,
      scope_extend, next_emit_single, next_extend]
    apply patch_loop
  | .ifThen test yes _, e => by
    simp only [emit, lower, scopeAfter, test.emit_eq, emit_eq yes, ok_bind, scope_emit,
      scope_extend, next_emit_single, next_extend]
    rw [emit_extend, extend_extend]
    apply patch_extend _ _ _ _ rfl rfl
  | .ifThenElse test yes no _, e => by
    simp only [emit, lower, scopeAfter, test.emit_eq, emit_eq yes, ok_bind, scope_emit,
      scope_extend, next_emit_single, next_extend]
    rw [e.emit_extend, extend_extend, emit_extend, patch_extend_emit _ _ _ _ rfl rfl, ok_bind,
      emit_eq no, ok_bind, scope_extend, next_extend_branches]
    apply patch_between_branches _ _ _ _ _ _ _ rfl
  | .result none _, e => by
    rw [emit, lower, scopeAfter, Emission.emit_eq]
  | .result (some value) _, e => by
    rw [emit, lower, scopeAfter, value.emit_eq, emit_extend]
  | .declare name value _, e => by
    simp only [emit, lower, scopeAfter, value.emit_eq, declare_eq, scope_extend]
    apply congrArg Except.ok
    apply emit_extend
  | .function .., e => by
    rw [emit, lower, scopeAfter, report_eq]
  | .assign target value span, e => by
    rw [emit, lower, scopeAfter, emitAssign_eq]
  | .forLoop start test update body _, e => by
    simp only [emit, lower, scopeAfter, emit_eq start, test.emit_eq, emit_eq body,
      emit_eq update, ok_bind, scope_emit, scope_extend, next_emit_single, next_extend]
    rw [extend_extend _ _ (update.lower ..), ← next_extend, patch_loop, extend_extend]

/-- Statements are emitted as they are lowered. -/
theorem Stmt.emitAll_eq :
    ∀ (l : List Stmt) (e : Emission),
      Stmt.emitAll l e
        = .ok (e.extend (Stmt.lowerAll e.scope e.next l) (Stmt.scopeAfterAll e.scope l))
  | [], e => by
    rw [emitAll, lowerAll, scopeAfterAll]
    simp only [extend, Piece.empty, List.append_nil]
  | s :: r, e => by
    simp only [emitAll, lowerAll, scopeAfterAll, emit_eq s, ok_bind, emitAll_eq r, extend_extend,
      scope_extend, next_extend]

end

/-- No patch fails, and what is emitted is what lowering returns. -/
theorem emitProgram_eq (statements : List Stmt) :
  emitProgram statements = .ok (lower statements)
  := by
  rw [emitProgram, Stmt.emitAll_eq, ok_bind, lower]
  simp only [emit, extend, start, next, List.length_nil, List.nil_append]
  cases Stmt.lowerAll [] 0 statements with
  | mk code problems =>
    cases problems with
    | nil | cons => rfl

end Source

end StackMachine
