import StackMachine.Proofs.Machine.Forward
import StackMachine.Proofs.Source.Desugaring
import StackMachine.Proofs.Source.Jumps

/-!
# Termination

Source without loops is lowered to forward code, so its run ends after at most as many steps as
the code has instructions.
-/

namespace StackMachine

namespace Source

/-! ### Source without loops -/

/-- No loop is visited, neither a conditional one nor a counted one. -/
def NoLoops (visits : List Visit) : Prop :=
  ∀ v ∈ visits, v.node.kind ≠ .whileLoop ∧ v.node.kind ≠ .forLoop

theorem NoLoops.right {visits visits' : List Visit} (h : NoLoops (visits ++ visits')) :
  NoLoops visits'
  := fun v hv => h v (List.mem_append_right _ hv)

theorem NoLoops.left {visits visits' : List Visit} (h : NoLoops (visits ++ visits')) :
  NoLoops visits
  := fun v hv => h v (List.mem_append_left _ hv)

theorem NoLoops.tail {visit : Visit} {visits : List Visit} (h : NoLoops (visit :: visits)) :
  NoLoops visits
  := fun v hv => h v (List.mem_cons_of_mem _ hv)

/-- The visits of a walk that skips nothing. -/
abbrev Stmt.visits (depth : Nat) (s : Stmt) : List Visit := s.walk (fun _ => false) depth

/-- The visits of walks through statements one after another that skip nothing. -/
abbrev Stmt.visitsAll (depth : Nat) (l : List Stmt) : List Visit :=
  walkAll (fun _ => false) depth l

mutual

/-- A statement in which no loop is visited is lowered to code without loops. -/
theorem Stmt.loops_eq_nil :
    ∀ (s : Stmt) {scope : Scope} {base depth : Nat}, NoLoops (s.visits depth) →
      s.loops scope base = []
  | .block body _, _, _, _, h => by
    rw [visits, walk] at h
    rw [loops]
    apply loopsAll_eq_nil body h.tail
  | .whileLoop .., _, _, _, h => by
    rw [visits, walk] at h
    cases (h _ List.mem_cons_self).1 rfl
  | .ifThen _ yes _, _, _, _, h => by
    rw [visits, walk] at h
    rw [loops]
    apply loops_eq_nil yes h.tail.right
  | .ifThenElse _ yes no _, _, _, _, h => by
    rw [visits, walk] at h
    simp only [loops]
    rw [loops_eq_nil yes h.tail.left.right, loops_eq_nil no h.tail.right, List.append_nil]
  | .result .., _, _, _, _ | .declare .., _, _, _, _ | .function .., _, _, _, _
  | .assign .., _, _, _, _ => by
    rw [loops]
  | .forLoop .., _, _, _, h => by
    rw [visits, walk] at h
    cases (h _ List.mem_cons_self).2 rfl

/-- Statements in which no loop is visited are lowered to code without loops. -/
theorem Stmt.loopsAll_eq_nil :
    ∀ (l : List Stmt) {scope : Scope} {base depth : Nat}, NoLoops (Stmt.visitsAll depth l) →
      Stmt.loopsAll scope base l = []
  | [], _, _, _, _ => by
    rw [loopsAll]
  | s :: r, _, _, _, h => by
    rw [visitsAll, walkAll] at h
    rw [loopsAll, loops_eq_nil s h.left, loopsAll_eq_nil r h.right, List.append_nil]

end

/-! ### Programs -/

section

variable {statements : List Stmt} {code : Code} {options : MachineOptions} {limits : Limits}
  (hlower : lower statements = .ok code)
  (hloops : NoLoops (Stmt.visitsAll 0 statements))

include hlower hloops in
/-- Source without loops is lowered to forward code. -/
theorem forward_of_noLoops :
  Forward code.toArray
  := by
  obtain ⟨last, -, -, -, hforward⟩ := directed_of_lower hlower
  rw [Stmt.loopsAll_eq_nil statements hloops] at hforward
  intro n i t hi ht
  rw [List.getElem?_toArray] at hi
  apply (hforward n i t hi ht).resolve_right
  rintro ⟨l, hl, -⟩
  cases hl

end

/-- A machine can be made of code that is lowered from source without loops and of any options that
set limits; only a source with more than `2 ^ 63` different declared names, if there were one, would
have a slot that is no word.  Whatever the options are, with or without a limit of steps, the run of
a machine halts or faults after at most as many steps as the code has instructions. -/
theorem ends_of_noLoops {statements : List Stmt} {code : Code} {options : MachineOptions}
    (hlower : lower statements = .ok code) (hloops : NoLoops (Stmt.visitsAll 0 statements)) :
  ((Stmt.declaredAll statements).dedup.length ≤ 2 ^ 63 →
      ∀ limits, Limits.ofOptions options.toLimitOptions = .ok limits →
      ∃ m, Machine.create code.toProgram.toData options = .ok m)
    ∧ ∀ m, Machine.create code.toProgram.toData options = .ok m →
      ∃ r m', m.run code.length = .ok (some (r, m')) ∧ r.steps ≤ code.length
  := by
  constructor
  · intro hdeclared limits hoptions
    have hcode := (isWellFormed_of_lower_iff hlower).mpr hdeclared
    exact ⟨_, Machine.create_toProgram hcode hoptions⟩
  · intro m hm
    have hcode := Machine.code_of_create_toProgram hm
    have h := Machine.ends_of_forward (Machine.not_started_of_create hm)
      (hcode ▸ disciplined_of_lower hlower) (hcode ▸ forward_of_noLoops hlower hloops)
    rwa [hcode] at h

/-- A program that returns from each of two branches, from the second after a division by 0. -/
def branching : List Stmt :=
  [.ifThenElse (.bool false none) (.result none none)
    (.result (some (.binary .div (.int 1 none) (.int 0 none) none)) none) none]

/-- The code with two branches has 9 instructions, and its run ends within as many steps: the fifth
of them, the division, faults. -/
theorem ends_of_noLoops_branching :
  ∃ code m r m', lower branching = .ok code ∧ code.length = 9
    ∧ NoLoops (Stmt.visitsAll 0 branching)
    ∧ Machine.create code.toProgram.toData {} = .ok m
    ∧ m.run 9 = .ok (some (r, m')) ∧ r.steps ≤ 9 ∧ r = ⟨.faulted .divisionByZero 6, 5⟩
  := by
  have hlower : lower branching = .ok _ := rfl
  have hloops : NoLoops (Stmt.visitsAll 0 branching) := by
    unfold NoLoops
    decide
  have hcode := (isWellFormed_of_lower_iff hlower).mpr (by decide)
  have hm : Machine.create (Code.toProgram _).toData {} = .ok _ :=
    Machine.create_toProgram hcode rfl
  obtain ⟨-, hends⟩ := ends_of_noLoops hlower hloops
  obtain ⟨r, m', hrun, hsteps⟩ := hends _ hm
  refine ⟨_, _, r, m', hlower, rfl, hloops, hm, hrun, hsteps, ?_⟩
  cases hrun
  rfl

end Source

end StackMachine
