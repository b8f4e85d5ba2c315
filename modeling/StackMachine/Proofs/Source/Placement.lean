import StackMachine.Proofs.Source.Site

/-!
# Placement of pieces

A piece is placed in the code of a machine from one position to another.  Where the piece of
a statement is placed, so are the pieces of its parts, and the jumps between them go to the
positions that the meaning of the statement asks for.
-/

namespace StackMachine

namespace Source

namespace Site

/-- A piece without problems whose code lies in the code of the machine from one position up
to another. -/
structure Places (S : Site) (base : Nat) (p : Piece) (exit : Nat) : Prop where
  problems : p.problems = []
  code : CodeAt S.code base p.code
  exit : base + p.code.length = exit

variable {S : Site} {base exit : Nat}

/-! ### Pieces -/

/-- Two pieces one after the other are placed one after the other. -/
theorem places_append {p q : Piece} :
  S.Places base (p ++ q) exit ↔ ∃ mid, S.Places base p mid ∧ S.Places mid q exit
  := by
  constructor
  · rintro ⟨hproblems, hcode, hexit⟩
    rw [Piece.append_problems] at hproblems
    rw [Piece.append_code] at hcode hexit
    obtain ⟨hp, hq⟩ := List.append_eq_nil_iff.mp hproblems
    obtain ⟨hp', hq'⟩ := codeAt_append.mp hcode
    rw [List.length_append, ← Nat.add_assoc] at hexit
    exact ⟨_, ⟨hp, hp', rfl⟩, ⟨hq, hq', hexit⟩⟩
  · rintro ⟨mid, ⟨hp, hp', rfl⟩, ⟨hq, hq', rfl⟩⟩
    constructor
    · apply List.append_eq_nil_iff.mpr ⟨hp, hq⟩
    · apply codeAt_append.mpr ⟨hp', hq'⟩
    · rw [Piece.append_code, List.length_append, Nat.add_assoc]

theorem Places.getElem? {i : Instruction Nat} (h : S.Places base (.ofCode [i]) exit) :
  S.code[base]? = some i
  := h.code.1

theorem not_places_ofProblem {p : Problem} (h : S.Places base (.ofProblem p) exit) :
  False
  := by
  cases h.problems

/-! ### Expressions -/

variable {scope : Scope}

/-- The piece of a name reads its slot. -/
theorem Places.name {n : Name} (h : S.Places base ((Expr.name n).lower scope) exit) :
  ∃ slot, scope.slot? n.text = some slot ∧ CodeAt S.code base (readSlot slot)
    ∧ base + 2 = exit
  := by
  rw [Expr.lower, Name.slot] at h
  cases hslot : scope.slot? n.text with
  | none =>
    rw [hslot] at h
    cases not_places_ofProblem h
  | some slot =>
    rw [hslot] at h
    exact ⟨slot, rfl, h.code, h.exit⟩

/-- The piece of a literal pushes it. -/
theorem Places.int {value : Int} {span : Option Span}
    (h : S.Places base ((Expr.int value span).lower scope) exit) :
  S.code[base]? = some (.loadc value) ∧ base + 1 = exit
  := by
  rw [Expr.lower] at h
  split at h
  · exact ⟨h.getElem?, h.exit⟩
  · cases not_places_ofProblem h

/-- The piece of an operation is placed as the pieces of the operands and the operator. -/
theorem Places.binary {op : BinaryOperator} {left right : Expr} {span : Option Span}
    (h : S.Places base ((Expr.binary op left right span).lower scope) exit) :
  ∃ mid last, S.Places base (left.lower scope) mid ∧ S.Places mid (right.lower scope) last
    ∧ S.code[last]? = some (.binary op) ∧ last + 1 = exit
  := by
  rw [Expr.lower] at h
  obtain ⟨last, h, hop⟩ := places_append.mp h
  obtain ⟨mid, hleft, hright⟩ := places_append.mp h
  exact ⟨mid, last, hleft, hright, hop.getElem?, hop.exit⟩

theorem Places.unary {op : UnaryOperator} {operand : Expr} {span : Option Span}
    (h : S.Places base ((Expr.unary op operand span).lower scope) exit) :
  ∃ last, S.Places base (operand.lower scope) last ∧ S.code[last]? = some (.unary op)
    ∧ last + 1 = exit
  := by
  rw [Expr.lower] at h
  obtain ⟨last, hoperand, hop⟩ := places_append.mp h
  exact ⟨last, hoperand, hop.getElem?, hop.exit⟩

/-! ### Statements -/

/-- The piece of an assignment is placed as that of its value and code that writes the
slot. -/
theorem Places.assign {n : Name} {value : Expr} {span : Option Span}
    (h : S.Places base ((Stmt.assign (.name n) value span).lower scope base) exit) :
  ∃ mid slot, S.Places base (value.lower scope) mid ∧ scope.slot? n.text = some slot
    ∧ CodeAt S.code mid (writeSlot slot) ∧ mid + 3 = exit
  := by
  rw [Stmt.lower, lowerAssign, Name.slot] at h
  cases hslot : scope.slot? n.text with
  | none =>
    rw [hslot] at h
    obtain ⟨mid, h, -⟩ := places_append.mp h
    cases not_places_ofProblem h
  | some slot =>
    rw [hslot] at h
    obtain ⟨mid, hvalue, hwrite⟩ := places_append.mp h
    exact ⟨mid, slot, hvalue, rfl, hwrite.code, hwrite.exit⟩

/-- An assignment to anything but a name is a problem. -/
theorem Places.exists_name {target value : Expr} {span : Option Span}
    (h : S.Places base ((Stmt.assign target value span).lower scope base) exit) :
  ∃ n, target = .name n
  := by
  cases target with
  | name n => use n
  | int | bool | binary | unary | call =>
    rw [Stmt.lower, lowerAssign] at h
    · cases not_places_ofProblem h
    · rintro _ ⟨⟩

/-- The piece of a declaration is placed as that of its value and code that writes the slot
of the declared name. -/
theorem Places.declare {name : Text} {value : Expr} {span : Option Span}
    (h : S.Places base ((Stmt.declare name value span).lower scope base) exit) :
  ∃ mid slot, S.Places base (value.lower scope) mid
    ∧ (scope.declare name).slot? name = some slot ∧ CodeAt S.code mid (writeSlot slot)
    ∧ mid + 3 = exit
  := by
  obtain ⟨slot, hslot⟩ := scope.exists_slot?_declare name
  rw [Stmt.lower, hslot] at h
  obtain ⟨mid, hvalue, hwrite⟩ := places_append.mp h
  exact ⟨mid, slot, hvalue, hslot, hwrite.code, hwrite.exit⟩

theorem Places.resultSome {value : Expr} {span : Option Span}
    (h : S.Places base ((Stmt.result (some value) span).lower scope base) exit) :
  ∃ mid, S.Places base (value.lower scope) mid ∧ S.code[mid]? = some .halt
  := by
  rw [Stmt.lower] at h
  obtain ⟨mid, hvalue, hhalt⟩ := places_append.mp h
  exact ⟨mid, hvalue, hhalt.getElem?⟩

/-- The body of a branch lies behind the test, which jumps to the end if it is 0. -/
theorem Places.ifThen {test : Expr} {yes : Stmt} {span : Option Span}
    (h : S.Places base ((Stmt.ifThen test yes span).lower scope base) exit) :
  ∃ mid, S.Places base (test.lower scope) mid ∧ S.code[mid]? = some (.jumpz exit)
    ∧ S.Places (mid + 1) (yes.lower scope (mid + 1)) exit
  := by
  simp only [Stmt.lower] at h
  obtain ⟨first, h, hyes⟩ := places_append.mp h
  obtain ⟨mid, htest, hjumpz⟩ := places_append.mp h
  obtain rfl : mid + 1 = first := hjumpz.exit
  have hmid := htest.exit
  have hexit := hyes.exit
  rw [hmid] at hyes hjumpz hexit
  have hjumpz := hjumpz.getElem?
  rw [Nat.add_right_comm, hexit] at hjumpz
  exact ⟨mid, htest, hjumpz, hyes⟩

/-- The first body of a branch lies behind the test and is followed by a jump to the end; the
test jumps to the second body if it is 0. -/
theorem Places.ifThenElse {test : Expr} {yes no : Stmt} {span : Option Span}
    (h : S.Places base ((Stmt.ifThenElse test yes no span).lower scope base) exit) :
  ∃ mid last, S.Places base (test.lower scope) mid
    ∧ S.code[mid]? = some (.jumpz (last + 1))
    ∧ S.Places (mid + 1) (yes.lower scope (mid + 1)) last
    ∧ S.code[last]? = some (.jump exit)
    ∧ S.Places (last + 1) (no.lower (yes.scopeAfter scope) (last + 1)) exit
  := by
  simp only [Stmt.lower] at h
  obtain ⟨second, h, hno⟩ := places_append.mp h
  obtain ⟨last, h, hjump⟩ := places_append.mp h
  obtain ⟨first, h, hyes⟩ := places_append.mp h
  obtain ⟨mid, htest, hjumpz⟩ := places_append.mp h
  obtain rfl : mid + 1 = first := hjumpz.exit
  obtain rfl : last + 1 = second := hjump.exit
  have hmid := htest.exit
  rw [hmid] at hjumpz hjump hyes hno
  have hlast : mid + (yes.lower scope (mid + 1)).code.length + 2 = last + 1 := by
    have := hyes.exit
    omega
  rw [hlast] at hjumpz hjump hno
  have hjump := hjump.getElem?
  rw [hno.exit] at hjump
  exact ⟨mid, last, htest, hjumpz.getElem?, hyes, hjump, hno⟩

/-- The pieces of a test and of a body that are executed again and again: the test jumps to
the end if it is 0, and behind the body, at the end, is a jump back to the test. -/
structure Loops (S : Site) (scope : Scope) (test : Expr) (body : List Stmt)
    (base mid last exit : Nat) : Prop where
  test : S.Places base (test.lower scope) mid
  jumpz : S.code[mid]? = some (.jumpz exit)
  body : S.Places (mid + 1) (Stmt.lowerAll scope (mid + 1) body) last
  jump : S.code[last]? = some (.jump base)
  exit : last + 1 = exit

/-- A loop is placed as its test and its body with jumps behind them. -/
theorem Places.loop {test : Expr} {body : List Stmt} {piece : Piece}
    (h : S.Places base (loop base (test.lower scope) piece) exit)
    (hpiece : piece
      = Stmt.lowerAll scope (base + (test.lower scope).code.length + 1) body) :
  ∃ mid last, S.Loops scope test body base mid last exit
  := by
  subst hpiece
  simp only [Source.loop] at h
  obtain ⟨last, h, hjump⟩ := places_append.mp h
  obtain ⟨first, h, hbody⟩ := places_append.mp h
  obtain ⟨mid, htest, hjumpz⟩ := places_append.mp h
  obtain rfl : mid + 1 = first := hjumpz.exit
  have hmid := htest.exit
  rw [hmid] at hjumpz hbody
  have hexit : mid + (Stmt.lowerAll scope (mid + 1) body).code.length + 2 = exit := by
    have := hbody.exit
    have : last + 1 = exit := hjump.exit
    omega
  rw [hexit] at hjumpz
  exact ⟨mid, last, htest, hjumpz.getElem?, hbody, hjump.getElem?, hjump.exit⟩

theorem Places.whileLoop {test : Expr} {body : Stmt} {span : Option Span}
    (h : S.Places base ((Stmt.whileLoop test body span).lower scope base) exit) :
  ∃ mid last, S.Loops scope test [body] base mid last exit
  := by
  simp only [Stmt.lower] at h
  apply h.loop
  rw [Stmt.lowerAll_singleton]

/-- A counted loop is placed as its start and a loop of its body and its update. -/
theorem Places.forLoop {start : Stmt} {test : Expr} {update body : Stmt} {span : Option Span}
    (h : S.Places base ((Stmt.forLoop start test update body span).lower scope base) exit) :
  ∃ top mid last, S.Places base (start.lower scope base) top
    ∧ S.Loops (start.scopeAfter scope) test [body, update] top mid last exit
  := by
  simp only [Stmt.lower] at h
  obtain ⟨top, hstart, h⟩ := places_append.mp h
  rw [hstart.exit] at h
  obtain ⟨mid, last, hloop⟩ := h.loop (Stmt.lowerAll_pair _ _ body update).symm
  exact ⟨top, mid, last, hstart, hloop⟩

/-- Statements are placed one after another. -/
theorem Places.cons {s : Stmt} {rest : List Stmt}
    (h : S.Places base (Stmt.lowerAll scope base (s :: rest)) exit) :
  ∃ mid, S.Places base (s.lower scope base) mid
    ∧ S.Places mid (Stmt.lowerAll (s.scopeAfter scope) mid rest) exit
  := by
  simp only [Stmt.lowerAll] at h
  obtain ⟨mid, hs, hrest⟩ := places_append.mp h
  rw [hs.exit] at hrest
  exact ⟨mid, hs, hrest⟩

theorem Places.nil (h : S.Places base (Stmt.lowerAll scope base []) exit) :
  base = exit
  := h.exit

end Site

end Source

end StackMachine
