import Mathlib.Data.List.Nodup
import Mathlib.Tactic.Common
import StackMachine.Proofs.Source.Meaning
import StackMachine.Proofs.Structure
import StackMachine.Source.Lowering

/-!
# Layout of lowered code

Where the variables and the parts of the code lie.  A name keeps its slot as the scope
grows, and the scope after a program holds every declared name once.  Code lies in a program
from some position on when its instructions do, one after another.
-/

namespace StackMachine

namespace Source

/-! ### Scopes -/

namespace Scope

theorem declare_of_mem {scope : Scope} {name : Text} (h : name ∈ scope) :
  scope.declare name = scope
  := if_pos (List.contains_iff_mem.mpr h)

theorem declare_of_not_mem {scope : Scope} {name : Text} (h : name ∉ scope) :
  scope.declare name = scope ++ [name]
  := if_neg (mt List.contains_iff_mem.mp h)

theorem prefix_declare (scope : Scope) (name : Text) :
  scope <+: scope.declare name
  := by
  by_cases h : name ∈ scope
  · use []
    rw [declare_of_mem h, List.append_nil]
  · rw [declare_of_not_mem h]
    apply List.prefix_append

theorem mem_declare {scope : Scope} {name x : Text} :
  x ∈ scope.declare name ↔ x ∈ scope ∨ x = name
  := by
  by_cases h : name ∈ scope
  · rw [declare_of_mem h]
    constructor
    · apply Or.inl
    · rintro (hx | rfl)
      · apply hx
      · apply h
  · rw [declare_of_not_mem h, List.mem_append, List.mem_singleton]

/-- A slot is the position of its name. -/
theorem getElem?_of_slot? {scope : Scope} {name : Text} {slot : Nat}
    (h : scope.slot? name = some slot) :
  scope[slot]? = some name
  := by
  obtain ⟨hslot, hname, -⟩ := List.idxOf?_eq_some_iff.mp h
  rw [List.getElem?_eq_getElem hslot, hname]

theorem lt_of_slot? {scope : Scope} {name : Text} {slot : Nat}
    (h : scope.slot? name = some slot) :
  slot < scope.length
  := (List.idxOf?_eq_some_iff.mp h).1

/-- Different names have different slots. -/
theorem slot?_injective {scope : Scope} {name name' : Text} {slot : Nat}
    (h : scope.slot? name = some slot) (h' : scope.slot? name' = some slot) :
  name = name'
  := by
  have := getElem?_of_slot? h
  rw [getElem?_of_slot? h'] at this
  injection this with this
  apply this.symm

/-- A name keeps its slot in a longer scope. -/
theorem slot?_of_prefix {scope scope' : Scope} (h : scope <+: scope') {name : Text}
    {slot : Nat} (hslot : scope.slot? name = some slot) :
  scope'.slot? name = some slot
  := by
  obtain ⟨rest, rfl⟩ := h
  rw [slot?, List.idxOf?] at hslot ⊢
  rw [List.findIdx?_append, hslot]
  rfl

/-- A declared name has a slot. -/
theorem exists_slot?_declare (scope : Scope) (name : Text) :
  ∃ slot, (scope.declare name).slot? name = some slot
  := by
  apply Option.isSome_iff_exists.mp
  apply List.isSome_idxOf?.mpr
  apply mem_declare.mpr (.inr rfl)

/-- The scope after the declaration of names one after another. -/
def declareAll (scope : Scope) (names : List Text) : Scope := names.foldl declare scope

theorem declareAll_append (scope : Scope) (names names' : List Text) :
  scope.declareAll (names ++ names') = (scope.declareAll names).declareAll names'
  := List.foldl_append

theorem prefix_declareAll (scope : Scope) (names : List Text) :
  scope <+: scope.declareAll names
  := by
  induction names generalizing scope with
  | nil => apply List.prefix_refl
  | cons name names ih => apply (scope.prefix_declare name).trans (ih _)

theorem mem_declareAll {scope : Scope} {names : List Text} {x : Text} :
  x ∈ scope.declareAll names ↔ x ∈ scope ∨ x ∈ names
  := by
  induction names generalizing scope with
  | nil => simp [declareAll]
  | cons name names ih =>
    apply ih.trans
    rw [mem_declare, List.mem_cons, or_assoc]

theorem nodup_declareAll {scope : Scope} (h : scope.Nodup) (names : List Text) :
  (scope.declareAll names).Nodup
  := by
  induction names generalizing scope with
  | nil => apply h
  | cons name names ih =>
    apply ih
    by_cases hname : name ∈ scope
    · rw [declare_of_mem hname]
      apply h
    · rw [declare_of_not_mem hname, List.nodup_append_comm]
      apply List.nodup_cons.mpr ⟨hname, h⟩

/-- The scope after the declaration of names has a slot for each different name. -/
theorem length_declareAll (names : List Text) :
  (declareAll [] names).length = names.dedup.length
  := by
  apply List.Perm.length_eq
  apply (List.perm_ext_iff_of_nodup (nodup_declareAll List.nodup_nil names)
    (List.nodup_dedup names)).mpr
  intro x
  rw [mem_declareAll, List.mem_dedup]
  simp

end Scope

mutual

/-- A statement adds the names that it declares to the scope. -/
theorem Stmt.scopeAfter_eq (scope : Scope) :
    ∀ s : Stmt, s.scopeAfter scope = scope.declareAll s.declared
  | .block body _ => by
    rw [scopeAfter, declared]
    apply scopeAfterAll_eq
  | .whileLoop _ body _ => by
    rw [scopeAfter, declared]
    apply scopeAfter_eq
  | .ifThen _ yes _ => by
    rw [scopeAfter, declared]
    apply scopeAfter_eq
  | .ifThenElse _ yes no _ => by
    rw [scopeAfter, declared, Scope.declareAll_append, scopeAfter_eq scope yes]
    apply scopeAfter_eq
  | .result .. => by
    rw [scopeAfter, declared]
    rfl
  | .declare .. => by
    rw [scopeAfter, declared]
    rfl
  | .function .. => by
    rw [scopeAfter, declared]
    rfl
  | .assign .. => by
    rw [scopeAfter, declared]
    rfl
  | .forLoop start _ update body _ => by
    rw [scopeAfter, declared, Scope.declareAll_append, Scope.declareAll_append,
      scopeAfter_eq scope start, scopeAfter_eq _ body]
    apply scopeAfter_eq

/-- Statements add the names that they declare to the scope. -/
theorem Stmt.scopeAfterAll_eq (scope : Scope) :
    ∀ l : List Stmt, Stmt.scopeAfterAll scope l = scope.declareAll (Stmt.declaredAll l)
  | [] => by
    rw [scopeAfterAll, declaredAll]
    rfl
  | s :: r => by
    rw [scopeAfterAll, declaredAll, Scope.declareAll_append, scopeAfter_eq scope s]
    apply scopeAfterAll_eq

end

theorem Stmt.prefix_scopeAfter (scope : Scope) (s : Stmt) :
  scope <+: s.scopeAfter scope
  := by
  rw [scopeAfter_eq]
  apply Scope.prefix_declareAll

theorem Stmt.prefix_scopeAfterAll (scope : Scope) (l : List Stmt) :
  scope <+: Stmt.scopeAfterAll scope l
  := by
  rw [scopeAfterAll_eq]
  apply Scope.prefix_declareAll

/-- The scope after a program has a slot for each different declared name. -/
theorem Stmt.length_scopeAfterAll (l : List Stmt) :
  (Stmt.scopeAfterAll [] l).length = (Stmt.declaredAll l).dedup.length
  := by
  rw [scopeAfterAll_eq]
  apply Scope.length_declareAll

/-! ### Pieces -/

namespace Piece

@[simp]
theorem append_code (p q : Piece) :
  (p ++ q).code = p.code ++ q.code
  := rfl

@[simp]
theorem append_problems (p q : Piece) :
  (p ++ q).problems = p.problems ++ q.problems
  := rfl

theorem append_empty (p : Piece) :
  p ++ empty = p
  := by
  change append p empty = p
  simp [append, empty]

end Piece

/-- One statement is lowered as a list of it. -/
theorem Stmt.lowerAll_singleton (scope : Scope) (base : Nat) (s : Stmt) :
  Stmt.lowerAll scope base [s] = s.lower scope base
  := by
  rw [lowerAll, lowerAll, Piece.append_empty]

/-- Two statements are lowered one after the other. -/
theorem Stmt.lowerAll_pair (scope : Scope) (base : Nat) (s s' : Stmt) :
  Stmt.lowerAll scope base [s, s']
    = s.lower scope base
      ++ s'.lower (s.scopeAfter scope) (base + (s.lower scope base).code.length)
  := by
  rw [lowerAll, lowerAll_singleton]

/-! ### Code in a program -/

/-- The instructions lie in the code from a position on. -/
def CodeAt (code : Array (Instruction Nat)) : Nat → Code → Prop
  | _, [] => True
  | base, i :: part => code[base]? = some i ∧ CodeAt code (base + 1) part

theorem codeAt_append {code : Array (Instruction Nat)} {base : Nat} {part part' : Code} :
  CodeAt code base (part ++ part')
    ↔ CodeAt code base part ∧ CodeAt code (base + part.length) part'
  := by
  induction part generalizing base with
  | nil => simp [CodeAt]
  | cons i part ih =>
    rw [List.cons_append, CodeAt, CodeAt, ih, and_assoc, List.length_cons,
      Nat.add_right_comm base 1, Nat.add_assoc]

/-- Code lies in itself. -/
theorem codeAt_self (code : Code) :
  CodeAt code.toArray 0 code
  := by
  have h (front : Code) : CodeAt (front ++ code).toArray front.length code := by
    induction code generalizing front with
    | nil => trivial
    | cons i code ih =>
      constructor
      · simp
      · have := ih (front ++ [i])
        rw [List.append_assoc, List.length_append] at this
        apply this
  apply h []

end Source

end StackMachine
