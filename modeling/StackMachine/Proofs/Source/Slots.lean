import StackMachine.Proofs.Source.Correctness

/-!
# Slots of the variables

The slots are numbered in the order in which the names are declared for the first time.  Lowered
code uses the memory only to read and write variables: it pushes the slot of a variable and
loads or stores there, one variable after another as the source names them.
-/

namespace StackMachine

/-- The instructions that neither load nor store. -/
def Instruction.LeavesMemory {τ : Type} : Instruction τ → Prop
  | load => False
  | store => False
  | _ => True

namespace Source

/-! ### Numbers of names -/

/-- A name has a slot among declared names: as many different names are declared before the name
is declared for the first time. -/
def HasSlot (names : List Text) (x : Text) (slot : Nat) : Prop :=
  ∃ before after, names = before ++ x :: after ∧ x ∉ before ∧ slot = before.dedup.length

namespace Scope

/-- A new name has the slot behind all others. -/
theorem slot?_declare_of_not_mem {scope : Scope} {x : Text} (h : x ∉ scope) :
  (scope.declare x).slot? x = some scope.length
  := by
  rw [declare_of_not_mem h, slot?]
  apply List.idxOf?_eq_some_iff.mpr
  refine ⟨by simp, by simp, ?_⟩
  intro j hj
  rw [List.getElem_append_left hj]
  intro hx
  apply h
  rw [← hx]
  apply List.getElem_mem

/-- The slot of a name that is declared behind names without it. -/
theorem slot?_declareAll_of_not_mem {before after : List Text} {x : Text} (h : x ∉ before) :
  (declareAll [] (before ++ x :: after)).slot? x = some before.dedup.length
  := by
  have hbefore : x ∉ declareAll [] before := by
    rw [mem_declareAll]
    simp [h]
  rw [declareAll_append, ← length_declareAll]
  apply slot?_of_prefix (prefix_declareAll _ after)
  apply slot?_declare_of_not_mem hbefore

/-- The slots of a scope are those of the declared names. -/
theorem slot?_declareAll_eq_some_iff {names : List Text} {x : Text} {slot : Nat} :
  (declareAll [] names).slot? x = some slot ↔ HasSlot names x slot
  := by
  constructor
  · intro h
    have hx : x ∈ names := by
      have := List.mem_of_getElem? (getElem?_of_slot? h)
      simpa [mem_declareAll] using this
    obtain ⟨before, after, rfl, hbefore⟩ := List.eq_append_cons_of_mem hx
    rw [slot?_declareAll_of_not_mem hbefore] at h
    exact ⟨before, after, rfl, hbefore, (Option.some.inj h).symm⟩
  · rintro ⟨before, after, rfl, hbefore, rfl⟩
    apply slot?_declareAll_of_not_mem hbefore

/-- Every place of a scope in which no name is repeated is the slot of a name. -/
theorem exists_slot?_of_lt {scope : Scope} (h : scope.Nodup) {slot : Nat}
    (hslot : slot < scope.length) :
  ∃ x, scope.slot? x = some slot
  := by
  use scope[slot]
  apply List.idxOf?_eq_some_iff.mpr
  refine ⟨hslot, rfl, ?_⟩
  intro j hj heq
  have := (h.getElem_inj_iff).mp heq
  omega

end Scope

namespace HasSlot

variable {names : List Text} {x y : Text} {slot slot' : Nat}

/-- A name has one slot, however often it is declared. -/
theorem unique (h : HasSlot names x slot) (h' : HasSlot names x slot') :
  slot = slot'
  := by
  rw [← Scope.slot?_declareAll_eq_some_iff] at h h'
  rw [h] at h'
  injection h'

/-- Different names have different slots. -/
theorem injective (h : HasSlot names x slot) (h' : HasSlot names y slot) :
  x = y
  := by
  rw [← Scope.slot?_declareAll_eq_some_iff] at h h'
  apply Scope.slot?_injective h h'

theorem mem (h : HasSlot names x slot) :
  x ∈ names
  := by
  obtain ⟨before, after, rfl, -⟩ := h
  simp

end HasSlot

/-- The slots are the numbers below the number of different names. -/
theorem exists_hasSlot_iff {names : List Text} {slot : Nat} :
  (∃ x, HasSlot names x slot) ↔ slot < names.dedup.length
  := by
  simp only [← Scope.slot?_declareAll_eq_some_iff, ← Scope.length_declareAll]
  constructor
  · rintro ⟨x, hx⟩
    apply Scope.lt_of_slot? hx
  · intro hslot
    apply Scope.exists_slot?_of_lt (Scope.nodup_declareAll List.nodup_nil names) hslot

/-! ### Uses of the variables -/

/-- A use of a variable. -/
inductive Access where
  | read (name : Text)
  | write (name : Text)

/-- The variable that is used. -/
def Access.name : Access → Text
  | read name => name
  | write name => name

/-- The code of a use of a variable with a slot. -/
def Access.code (slot : Nat) : Access → Code
  | read _ => readSlot slot
  | write _ => writeSlot slot

/-- Code that uses variables, in an order, at slots that they have, and does not use the memory
otherwise. -/
inductive Accesses (slotted : Text → Nat → Prop) : Code → List Access → Prop where
  | nil : Accesses slotted [] []
  | access {a : Access} {slot : Nat} {code : Code} {l : List Access}
      (ha : slotted a.name slot) (hrest : Accesses slotted code l) :
      Accesses slotted (a.code slot ++ code) (a :: l)
  | other {i : Instruction Nat} {code : Code} {l : List Access} (hi : i.LeavesMemory)
      (hrest : Accesses slotted code l) : Accesses slotted (i :: code) l

namespace Accesses

variable {slotted : Text → Nat → Prop} {code code' : Code} {l l' : List Access}

theorem append (h : Accesses slotted code l) (h' : Accesses slotted code' l') :
  Accesses slotted (code ++ code') (l ++ l')
  := by
  induction h with
  | nil => apply h'
  | access ha _ ih =>
    rw [List.append_assoc, List.cons_append]
    apply access ha ih
  | other hi _ ih => apply other hi ih

theorem single {i : Instruction Nat} (hi : i.LeavesMemory) :
  Accesses slotted [i] []
  := other hi nil

/-- The slot of a variable that is used is a constant of the code. -/
theorem exists_loadc (h : Accesses slotted code l) {a : Access} (ha : a ∈ l) :
  ∃ slot : Nat, slotted a.name slot ∧ .loadc slot ∈ code
  := by
  induction h with
  | nil => cases ha
  | @access b slot code l hb _ ih =>
    rcases List.mem_cons.mp ha with rfl | ha
    · use slot, hb
      cases a <;> apply List.mem_cons_self
    · obtain ⟨slot', hslot', hmem⟩ := ih ha
      exact ⟨slot', hslot', List.mem_append_right _ hmem⟩
  | other _ _ ih =>
    obtain ⟨slot, hslot, hmem⟩ := ih ha
    exact ⟨slot, hslot, List.mem_cons_of_mem _ hmem⟩

end Accesses

/-- The variables that an expression reads, in order. -/
def Expr.accesses : Expr → List Access
  | .name n => [.read n.text]
  | .int .. => []
  | .bool .. => []
  | .binary _ left right _ => left.accesses ++ right.accesses
  | .unary _ operand _ => operand.accesses
  | .call .. => []

/-- The variables that an assignment uses: it writes its target after it has read the value. -/
def accessesOfAssign (target value : Expr) : List Access :=
  match target with
  | .name n => value.accesses ++ [.write n.text]
  | _ => []

mutual

/-- The variables that a statement uses, in order. -/
def Stmt.accesses : Stmt → List Access
  | .block body _ => accessesAll body
  | .whileLoop test body _ => test.accesses ++ body.accesses
  | .ifThen test yes _ => test.accesses ++ yes.accesses
  | .ifThenElse test yes no _ => test.accesses ++ yes.accesses ++ no.accesses
  | .result none _ => []
  | .result (some value) _ => value.accesses
  | .declare name value _ => value.accesses ++ [.write name]
  | .function .. => []
  | .assign target value _ => accessesOfAssign target value
  | .forLoop start test update body _ =>
    start.accesses ++ test.accesses ++ body.accesses ++ update.accesses

/-- The variables that statements use, in order. -/
def Stmt.accessesAll : List Stmt → List Access
  | [] => []
  | s :: r => s.accesses ++ accessesAll r

end

mutual

/-- A declared name is written. -/
theorem Stmt.write_mem_accesses {x : Text} :
    ∀ s : Stmt, x ∈ s.declared → .write x ∈ s.accesses
  | .block body _, h => by
    rw [declared] at h
    rw [accesses]
    apply write_mem_accessesAll body h
  | .whileLoop test body _, h => by
    rw [declared] at h
    rw [accesses]
    apply List.mem_append_right _ (write_mem_accesses body h)
  | .ifThen test yes _, h => by
    rw [declared] at h
    rw [accesses]
    apply List.mem_append_right _ (write_mem_accesses yes h)
  | .ifThenElse test yes no _, h => by
    rw [declared] at h
    rw [accesses, List.append_assoc]
    apply List.mem_append_right
    apply List.mem_append.mpr
    apply (List.mem_append.mp h).imp (write_mem_accesses yes) (write_mem_accesses no)
  | .result .., h => by
    rw [declared] at h
    cases h
  | .declare name value _, h => by
    rw [declared] at h
    rw [accesses, List.mem_singleton.mp h]
    apply List.mem_append_right _ (List.mem_singleton_self _)
  | .function .., h => by
    rw [declared] at h
    cases h
  | .assign .., h => by
    rw [declared] at h
    cases h
  | .forLoop start test update body _, h => by
    rw [declared] at h
    rw [accesses]
    simp only [List.mem_append] at h ⊢
    rcases h with (h | h) | h
    · exact .inl (.inl (.inl (write_mem_accesses start h)))
    · exact .inl (.inr (write_mem_accesses body h))
    · exact .inr (write_mem_accesses update h)

theorem Stmt.write_mem_accessesAll {x : Text} :
    ∀ l : List Stmt, x ∈ Stmt.declaredAll l → .write x ∈ Stmt.accessesAll l
  | [], h => by
    rw [declaredAll] at h
    cases h
  | s :: r, h => by
    rw [declaredAll] at h
    rw [accessesAll]
    apply List.mem_append.mpr
    apply (List.mem_append.mp h).imp (write_mem_accesses s) (write_mem_accessesAll r)

end

/-! ### Lowered code -/

/-- The code of a piece without problems uses the variables of a scope, in an order. -/
def Piece.Uses (whole : Scope) (p : Piece) (l : List Access) : Prop :=
  p.problems = [] → Accesses (fun x slot => whole.slot? x = some slot) p.code l

namespace Piece

variable {whole : Scope}

theorem Uses.append {p q : Piece} {l l' : List Access} (hp : p.Uses whole l)
    (hq : q.Uses whole l') :
  (p ++ q).Uses whole (l ++ l')
  := by
  intro hproblems
  obtain ⟨hp', hq'⟩ := List.append_eq_nil_iff.mp hproblems
  apply (hp hp').append (hq hq')

/-- An instruction that does not use the memory may follow. -/
theorem Uses.emit {p : Piece} {l : List Access} (hp : p.Uses whole l) {i : Instruction Nat}
    (hi : i.LeavesMemory) :
  (p ++ ofCode [i]).Uses whole l
  := by
  have hsingle : (ofCode [i]).Uses whole [] := fun _ => .single hi
  rw [← List.append_nil l]
  apply hp.append hsingle

/-- The code of a use uses the variable. -/
theorem uses_access {a : Access} {slot : Nat} (ha : whole.slot? a.name = some slot) :
  (ofCode (a.code slot)).Uses whole [a]
  := by
  intro _
  have h : Accesses (fun x slot => whole.slot? x = some slot) (a.code slot ++ []) [a] :=
    .access ha .nil
  rw [List.append_nil] at h
  apply h

theorem uses_ofProblem (p : Problem) (l : List Access) :
  (ofProblem p).Uses whole l
  := by
  rintro ⟨⟩

theorem uses_loop {base : Nat} {test body : Piece} {l l' : List Access}
    (htest : test.Uses whole l) (hbody : body.Uses whole l') :
  (loop base test body).Uses whole (l ++ l')
  := by
  rw [loop]
  apply Uses.emit _ (by trivial)
  apply Uses.append _ hbody
  apply htest.emit (by trivial)

end Piece

open Piece

variable {whole : Scope}

/-- The code of an expression reads the variables of the expression. -/
theorem Expr.uses_lower {scope : Scope} (h : scope <+: whole) :
    ∀ e : Expr, (e.lower scope).Uses whole e.accesses
  | .name n => by
    rw [lower, accesses, Name.slot]
    cases hslot : scope.slot? n.text with
    | some slot => apply uses_access (a := .read n.text) (Scope.slot?_of_prefix h hslot)
    | none => apply uses_ofProblem
  | .int value span => by
    rw [lower, accesses]
    split
    · exact fun _ => .single trivial
    · apply uses_ofProblem
  | .bool .. => by
    rw [lower, accesses]
    exact fun _ => .single trivial
  | .binary _ left right _ => by
    rw [lower, accesses]
    apply Uses.emit _ (by trivial)
    apply (uses_lower h left).append (uses_lower h right)
  | .unary _ operand _ => by
    rw [lower, accesses]
    apply (uses_lower h operand).emit (by trivial)
  | .call .. => by
    rw [lower]
    apply uses_ofProblem

/-- The code of an assignment writes the target after it has read the value. -/
theorem uses_lowerAssign {scope : Scope} (h : scope <+: whole) (target value : Expr)
    (span : Option Span) :
  (lowerAssign scope target value span).Uses whole (accessesOfAssign target value)
  := by
  cases target with
  | name n =>
    rw [lowerAssign, accessesOfAssign, Name.slot]
    cases hslot : scope.slot? n.text with
    | some slot =>
      apply (value.uses_lower h).append
      apply uses_access (a := .write n.text) (Scope.slot?_of_prefix h hslot)
    | none => rintro ⟨⟩
  | int | bool | binary | unary | call => apply uses_ofProblem

mutual

/-- The code of a statement uses the variables as the statement does. -/
theorem Stmt.uses_lower :
    ∀ (s : Stmt) {scope : Scope} (base : Nat), s.scopeAfter scope <+: whole →
      (s.lower scope base).Uses whole s.accesses
  | .block body _, scope, base, h => by
    rw [scopeAfter] at h
    rw [lower, accesses]
    apply uses_lowerAll body base h
  | .whileLoop test body _, scope, base, h => by
    rw [scopeAfter] at h
    have hscope := (prefix_scopeAfter scope body).trans h
    simp only [lower, accesses]
    apply uses_loop (test.uses_lower hscope) (uses_lower body _ h)
  | .ifThen test yes _, scope, base, h => by
    rw [scopeAfter] at h
    have hscope := (prefix_scopeAfter scope yes).trans h
    simp only [lower, accesses]
    apply Uses.append _ (uses_lower yes _ h)
    apply (test.uses_lower hscope).emit (by trivial)
  | .ifThenElse test yes no _, scope, base, h => by
    rw [scopeAfter] at h
    have hyes := (prefix_scopeAfter _ no).trans h
    have hscope := (prefix_scopeAfter scope yes).trans hyes
    simp only [lower, accesses]
    apply Uses.append _ (uses_lower no _ h)
    apply Uses.emit _ (by trivial)
    apply Uses.append _ (uses_lower yes _ hyes)
    apply (test.uses_lower hscope).emit (by trivial)
  | .result none _, scope, base, h => by
    rw [lower, accesses]
    exact fun _ => .single trivial
  | .result (some value) _, scope, base, h => by
    rw [scopeAfter] at h
    rw [lower, accesses]
    apply (value.uses_lower h).emit (by trivial)
  | .declare name value _, scope, base, h => by
    rw [scopeAfter] at h
    have hscope := (scope.prefix_declare name).trans h
    obtain ⟨slot, hslot⟩ := scope.exists_slot?_declare name
    rw [lower, accesses, hslot]
    apply (value.uses_lower hscope).append
    apply uses_access (a := .write name) (Scope.slot?_of_prefix h hslot)
  | .function .., scope, base, h => by
    rw [lower]
    apply uses_ofProblem
  | .assign target value span, scope, base, h => by
    rw [scopeAfter] at h
    rw [lower, accesses]
    apply uses_lowerAssign h
  | .forLoop start test update body _, scope, base, h => by
    rw [scopeAfter] at h
    have hbody := (prefix_scopeAfter _ update).trans h
    have hinner := (prefix_scopeAfter _ body).trans hbody
    simp only [lower, accesses, List.append_assoc]
    apply (uses_lower start base hinner).append
    apply uses_loop (test.uses_lower hinner)
    apply (uses_lower body _ hbody).append (uses_lower update _ h)

/-- The code of statements uses the variables as the statements do. -/
theorem Stmt.uses_lowerAll :
    ∀ (l : List Stmt) {scope : Scope} (base : Nat), Stmt.scopeAfterAll scope l <+: whole →
      (Stmt.lowerAll scope base l).Uses whole (Stmt.accessesAll l)
  | [], scope, base, h => by
    rw [lowerAll, accessesAll]
    exact fun _ => .nil
  | s :: r, scope, base, h => by
    rw [scopeAfterAll] at h
    simp only [lowerAll, accessesAll]
    apply Uses.append
    · apply uses_lower s base ((prefix_scopeAfterAll _ r).trans h)
    · apply uses_lowerAll r _ h

end

/-- Lowered code uses each variable at the slot of its name. -/
theorem accesses_lower {statements : List Stmt} {code : Code}
    (hlower : lower statements = .ok code) :
  Accesses (HasSlot (Stmt.declaredAll statements)) code (Stmt.accessesAll statements)
  := by
  obtain ⟨hproblems, rfl⟩ := lower_eq_ok hlower
  have h := Stmt.uses_lowerAll statements 0 (List.prefix_refl _) hproblems
  simp only [Stmt.scopeAfterAll_eq, Scope.slot?_declareAll_eq_some_iff] at h
  rw [← List.append_nil (Stmt.accessesAll statements)]
  apply h.append (.single (by trivial))

/-- The slots that lowered code uses are the numbers below the number of different declared
names. -/
theorem exists_access_iff {statements : List Stmt} {slot : Nat} :
  (∃ a ∈ Stmt.accessesAll statements, HasSlot (Stmt.declaredAll statements) a.name slot)
    ↔ slot < (Stmt.declaredAll statements).dedup.length
  := by
  rw [← exists_hasSlot_iff]
  constructor
  · rintro ⟨a, -, ha⟩
    use a.name
  · rintro ⟨x, hx⟩
    exact ⟨.write x, Stmt.write_mem_accessesAll statements hx.mem, hx⟩

end Source

end StackMachine
