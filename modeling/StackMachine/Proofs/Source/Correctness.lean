import StackMachine.Proofs.Machine.Options
import StackMachine.Proofs.Source.Constants
import StackMachine.Proofs.Source.Divergence

/-!
# Lowering preserves the meaning

A machine with the code of a program ends as the program does, and runs for ever if the
program has no result.
-/

namespace StackMachine

namespace Source

open Site

/-- The run of a machine ends as statements do: after they have ended normally it has halted
with nothing on the stack, after they have returned it has halted with what they return, and
if they have faulted it has faulted as they have. -/
def EndsAs (m : Machine) : Result → Prop
  | .normal _ => ∃ t, m.Ends ⟨.halted, t⟩ ∧ t.stack = []
  | .returned value => ∃ t, m.Ends ⟨.halted, t⟩ ∧ t.stack = value.toList
  | .faulted fault => ∃ index t, m.Ends ⟨.faulted fault index, t⟩

/-- Lowered code is the code of the statements followed by `halt`. -/
theorem lower_eq_ok {statements : List Stmt} {code : Code} (h : lower statements = .ok code) :
  (Stmt.lowerAll [] 0 statements).problems = []
    ∧ code = (Stmt.lowerAll [] 0 statements).code ++ [.halt]
  := by
  rw [lower] at h
  rcases hl : Stmt.lowerAll [] 0 statements with ⟨code', problems⟩
  rw [hl] at h
  cases problems with
  | nil =>
    cases h
    exact ⟨rfl, rfl⟩
  | cons p r => cases h

section

variable {statements : List Stmt} {code : Code} {limits : Limits}

/-- The site of lowered code: every declared name has room in the memory. -/
def site (statements : List Stmt) (code : Code) (limits : Limits)
    (hlimits : limits.maxSteps = none)
    (hmemory : (Stmt.declaredAll statements).dedup.length ≤ limits.memory) : Site where
  limits := limits
  code := code.toArray
  scope := Stmt.scopeAfterAll [] statements
  unlimited := hlimits
  room := Nat.le_trans (Nat.le_of_eq (Stmt.length_scopeAfterAll statements)) hmemory

variable (hlower : lower statements = .ok code) (hlimits : limits.maxSteps = none)
  (hmemory : (Stmt.declaredAll statements).dedup.length ≤ limits.memory)

/-- The run begins before the first statement, with every variable 0. -/
theorem at_initial :
  (site statements code limits hlimits hmemory).At ⟨.initial, 0, []⟩ .initial
  := by
  constructor
  · rfl
  · rfl
  · intro name slot _
    rfl

include hlower

/-- The statements are placed before `halt`. -/
theorem places_site :
  ∃ exit, (site statements code limits hlimits hmemory).Places 0
      (Stmt.lowerAll [] 0 statements) exit
    ∧ code.toArray[exit]? = some .halt
  := by
  obtain ⟨hproblems, rfl⟩ := lower_eq_ok hlower
  obtain ⟨hcode, hhalt, -⟩ := codeAt_append.mp
    (codeAt_self ((Stmt.lowerAll [] 0 statements).code ++ [.halt]))
  exact ⟨_, ⟨hproblems, hcode, rfl⟩, hhalt⟩

/-- The run of lowered code ends as the statements do. -/
theorem yields_site {r : Result} (h : Stmt.ExecutesAll statements .initial r) :
  ∃ exit, (site statements code limits hlimits hmemory).Yields ⟨.initial, 0, []⟩ exit r
    ∧ code.toArray[exit]? = some .halt
  := by
  obtain ⟨exit, hplace, hhalt⟩ := places_site hlower hlimits hmemory
  use exit
  constructor
  · apply Stmt.yieldsAll h (List.prefix_refl _) hplace
  · apply hhalt

/-- The run of lowered code goes on for ever if the statements have no result. -/
theorem goesOn_site (h : ¬ ∃ r, Stmt.ExecutesAll statements .initial r) (n : Nat) :
  (site statements code limits hlimits hmemory).GoesOn ⟨.initial, 0, []⟩ n
  := by
  obtain ⟨exit, hplace, -⟩ := places_site hlower hlimits hmemory
  rcases Stmt.decidesAll statements (List.prefix_refl _) hplace n .initial with hr | hgoes
  · cases h hr
  · apply hgoes

end

/-- The constants of lowered code are words if the slots are. -/
theorem isWellFormed_of_isSmall {statements : List Stmt} {code : Code}
    (hlower : lower statements = .ok code)
    (hsmall : Scope.IsSmall (Stmt.scopeAfterAll [] statements)) :
  ∀ i ∈ code, i.IsWellFormed
  := by
  obtain ⟨-, rfl⟩ := lower_eq_ok hlower
  intro i hi
  rcases List.mem_append.mp hi with hi | hi
  · apply Stmt.isWellFormed_lowerAll statements 0 hsmall i hi
  · rw [List.mem_singleton.mp hi]
    trivial

/-- The constants of lowered code are words if a machine can have room for the declared
names. -/
theorem isWellFormed_of_lower {statements : List Stmt} {code : Code}
    (hlower : lower statements = .ok code)
    (hsize : (Stmt.declaredAll statements).dedup.length ≤ Limits.greatestSize) :
  ∀ i ∈ code, i.IsWellFormed
  := by
  apply isWellFormed_of_isSmall hlower
  have hgreatest : (Limits.greatestSize : Int) ≤ Word.greatest + 1 := by decide
  rw [Scope.IsSmall, Stmt.length_scopeAfterAll]
  apply Int.le_trans (Int.ofNat_le.mpr hsize) hgreatest

/-- A machine with lowered code ends as the run of the code does. -/
theorem endsAs_of_yields {S : Site} {m : Machine} (hm : m.started = false)
    (hS : S.limits = m.limits ∧ S.code = m.code.toArray) {env : Env} {exit : Nat} {r : Result}
    (hinitial : S.At ⟨env, 0, []⟩ .initial) (h : S.Yields ⟨env, 0, []⟩ exit r)
    (hhalt : S.code[exit]? = some .halt) :
  EndsAs m r
  := by
  obtain ⟨hlimits, hcode⟩ := hS
  cases r with
  | normal env' =>
    obtain ⟨t, ht, hstack⟩ := Leads.halts h (halts_halt hhalt) _ hinitial
    rw [hlimits, hcode] at ht
    exact ⟨t, m.ends_of_endsIn hm ht, hstack⟩
  | returned value =>
    obtain ⟨t, ht, hstack⟩ := h _ hinitial
    rw [hlimits, hcode] at ht
    exact ⟨t, m.ends_of_endsIn hm ht, hstack⟩
  | faulted fault =>
    obtain ⟨index, t, ht⟩ := h _ hinitial
    rw [hlimits, hcode] at ht
    exact ⟨index, t, m.ends_of_endsIn hm ht⟩

/-- A machine can be made of lowered code and options that set no limit of steps and leave
room for every declared name.  It ends as the statements do; if the statements have no
result it never ends, and with a limit of steps it faults there. -/
theorem lower_correct {statements : List Stmt} {code : Code} {options : MachineOptions}
    {limits : Limits} (hlower : lower statements = .ok code)
    (hoptions : Limits.ofOptions options.toLimitOptions = .ok limits)
    (hsteps : options.maxSteps = .absent)
    (hmemory : (Stmt.declaredAll statements).dedup.length ≤ limits.memory) :
  ∃ m, Machine.create code.toProgram.toData options = .ok m
    ∧ (∀ r, Stmt.ExecutesAll statements .initial r → EndsAs m r)
    ∧ ((¬ ∃ r, Stmt.ExecutesAll statements .initial r) →
      (∀ n, m.run n = .ok none)
        ∧ ∀ option bound, Limits.steps? option = some (some bound) →
          ∃ m', Machine.create code.toProgram.toData { options with maxSteps := option } = .ok m'
            ∧ ∃ index t, m'.Ends ⟨.faulted (.stepLimit bound) index, t⟩ ∧ t.steps = bound)
  := by
  obtain ⟨hmaxSteps, hsize, hheap⟩ := Limits.ofOptions_eq_ok hoptions
  have hlimits : limits.maxSteps = none := by
    rw [hsteps] at hmaxSteps
    injection hmaxSteps with hmaxSteps
    apply hmaxSteps.symm
  have hcode := isWellFormed_of_lower hlower (Limits.allowsSize_of_size? hsize hmemory).greatest
  refine ⟨_, Machine.create_toProgram hcode hoptions, ?_, ?_⟩
  · intro r hr
    obtain ⟨exit, hyields, hhalt⟩ := yields_site hlower hlimits hmemory hr
    apply endsAs_of_yields rfl ⟨rfl, rfl⟩ (at_initial hlimits hmemory) hyields hhalt
  · intro hnone
    have hgoes (n : Nat) : State.initial.GoesOn limits code.toArray n :=
      goesOn_site hlower hlimits hmemory hnone n _ (at_initial hlimits hmemory)
    constructor
    · intro n
      apply Machine.run_of_goesOn rfl (hgoes n)
    · intro option bound hbound
      have hoptions' : Limits.ofOptions { options.toLimitOptions with maxSteps := option }
          = .ok { limits with maxSteps := some bound } := by
        rw [Limits.ofOptions, hbound, hsize, hheap]
        rfl
      refine ⟨_, Machine.create_toProgram hcode hoptions', ?_⟩
      obtain ⟨t, ht, ht'⟩ := (hgoes bound).endsIn_maxSteps hlimits rfl
      exact ⟨t.pc, t, Machine.ends_of_endsIn rfl ht, ht'⟩

/-- A program that counts down from 1 in a loop and returns the count. -/
def countdown : List Stmt :=
  [.declare "n" (.int 1 none) none,
    .whileLoop (.name { text := "n" })
      (.assign (.name { text := "n" })
        (.binary .sub (.name { text := "n" }) (.int 1 none) none) none) none,
    .result (some (.name { text := "n" })) none]

/-- The code of the countdown halts with what the countdown returns. -/
theorem lower_correct_countdown :
  ∃ code m t, lower countdown = .ok code
    ∧ Machine.create code.toProgram.toData {} = .ok m ∧ m.Ends ⟨.halted, t⟩ ∧ t.stack = [0]
  := by
  have hlower : lower countdown = .ok _ := rfl
  have hoptions : Limits.ofOptions ({} : MachineOptions).toLimitOptions = .ok _ := rfl
  have hdeclared : (Stmt.declaredAll countdown).dedup.length ≤ Limits.defaultSize := by decide
  obtain ⟨m, hm, hends, -⟩ := lower_correct hlower hoptions rfl hdeclared
  have hone : (Expr.name { text := "n" }).Evaluates
      (Function.update Env.initial "n" 1) (.ok 1) := .name _
  have hzero : (Expr.name { text := "n" }).Evaluates
      (Function.update (Function.update Env.initial "n" 1) "n" 0) (.ok 0) := .name _
  have hvalue : (Expr.binary .sub (.name { text := "n" }) (.int 1 none) none).Evaluates
      (Function.update Env.initial "n" 1) (.ok 0) := .binary hone (.int 1 none) rfl
  have hbody : Stmt.Executes (.assign (.name { text := "n" }) _ none) _ _ := .assign hvalue
  have hloop : Stmt.Repeats (.name { text := "n" }) _ _ _ :=
    .again hone (by decide) (.cons hbody .nil) (.done hzero)
  have hall : Stmt.ExecutesAll countdown .initial (.returned (some 0)) :=
    .cons (.declare (.int 1 none)) (.cons (.whileLoop hloop) (.stop (.resultSome hzero) trivial))
  obtain ⟨t, ht, hstack⟩ := hends _ hall
  exact ⟨_, m, t, hlower, hm, ht, hstack⟩

end Source

end StackMachine
