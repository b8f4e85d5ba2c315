import StackMachine.Proofs.Machine.Effect
import StackMachine.Proofs.Machine.Reach
import StackMachine.Proofs.Source.Layout

/-!
# Lowered code on a machine

The machine is seen through the variables: a point of a run is a place in the code with the
values of the variables and a stack.  Each short piece of code that lowering emits leads
from one point to another, or to the end of the run.
-/

namespace StackMachine

namespace Source

/-! ### Points of a run -/

/-- Code on a machine without a limit of steps that has room for the variables of a scope. -/
structure Site where
  limits : Limits
  code : Array (Instruction Nat)
  scope : Scope
  unlimited : limits.maxSteps = none
  room : scope.length ≤ limits.memory

/-- A point of a run: the values of the variables, a place in the code and a stack. -/
structure Point where
  env : Env
  pc : Nat
  stack : List Int

namespace Site

section

variable (S : Site)

/-- A state that is at a point: each variable has its value in its slot. -/
structure At (p : Point) (s : State) : Prop where
  pc : s.pc = p.pc
  stack : s.stack = p.stack
  memory : ∀ name slot, S.scope.slot? name = some slot → s.memory.getD slot 0 = p.env name

/-- A cycle leads from the first point to the second. -/
def Steps (p q : Point) : Prop :=
  ∀ s, S.At p s → ∃ t, s.cycle S.limits S.code = .running t ∧ S.At q t

/-- The run leads from the first point to the second. -/
def Leads (p q : Point) : Prop :=
  ∀ s, S.At p s → ∃ t, s.Reaches S.limits S.code t ∧ S.At q t

/-- The run from a point halts with a stack. -/
def Halts (p : Point) (stack : List Int) : Prop :=
  ∀ s, S.At p s → ∃ t, s.EndsIn S.limits S.code ⟨.halted, t⟩ ∧ t.stack = stack

/-- The run from a point faults. -/
def Faults (p : Point) (fault : Fault) : Prop :=
  ∀ s, S.At p s → ∃ index t, s.EndsIn S.limits S.code ⟨.faulted fault index, t⟩

/-- The run from a point goes on after a number of cycles. -/
def GoesOn (p : Point) (n : Nat) : Prop :=
  ∀ s, S.At p s → s.GoesOn S.limits S.code n

end

variable {S : Site} {p q r : Point}

theorem Leads.refl (p : Point) :
  S.Leads p p
  := by
  intro s hs
  exact ⟨s, State.Reaches.refl s, hs⟩

theorem Leads.trans (h : S.Leads p q) (h' : S.Leads q r) :
  S.Leads p r
  := by
  intro s hs
  obtain ⟨t, hst, ht⟩ := h s hs
  obtain ⟨u, htu, hu⟩ := h' t ht
  exact ⟨u, hst.trans htu, hu⟩

theorem Leads.halts {stack : List Int} (h : S.Leads p q) (h' : S.Halts q stack) :
  S.Halts p stack
  := by
  intro s hs
  obtain ⟨t, hst, ht⟩ := h s hs
  obtain ⟨u, htu, hu⟩ := h' t ht
  exact ⟨u, hst.endsIn htu, hu⟩

theorem Leads.faults {fault : Fault} (h : S.Leads p q) (h' : S.Faults q fault) :
  S.Faults p fault
  := by
  intro s hs
  obtain ⟨t, hst, ht⟩ := h s hs
  obtain ⟨index, u, htu⟩ := h' t ht
  exact ⟨index, u, hst.endsIn htu⟩

theorem Leads.goesOn {n : Nat} (h : S.Leads p q) (h' : S.GoesOn q n) :
  S.GoesOn p n
  := by
  intro s hs
  obtain ⟨t, hst, ht⟩ := h s hs
  apply hst.goesOn (h' t ht)

theorem Steps.leads (h : S.Steps p q) :
  S.Leads p q
  := by
  intro s hs
  obtain ⟨t, hst, ht⟩ := h s hs
  exact ⟨t, State.reaches_of_cycle hst, ht⟩

/-- A point from which a cycle leads to another goes on for one cycle more. -/
theorem Steps.goesOn {n : Nat} (h : S.Steps p q) (h' : S.GoesOn q n) :
  S.GoesOn p (n + 1)
  := by
  intro s hs
  obtain ⟨t, hst, ht⟩ := h s hs
  apply State.goesOn_of_cycle hst (h' t ht)

theorem goesOn_zero (p : Point) :
  S.GoesOn p 0
  := by
  intro s _
  use s
  rfl

/-! ### Instructions -/

/-- At a point where there is an instruction it is executed. -/
theorem At.cycle {s : State} {i : Instruction Nat} (hs : S.At p s)
    (hi : S.code[p.pc]? = some i) :
  s.cycle S.limits S.code = s.advance.execute S.limits i
  := by
  apply State.cycle_of_fetch
  apply State.fetch_eq_ok.mpr
  constructor
  · rw [hs.pc, hi]
  · intro limit hlimit
    rw [S.unlimited] at hlimit
    cases hlimit

/-- An instruction leads from one point to another if its effect does. -/
theorem steps_of_effect {i : Instruction Nat} (hi : S.code[p.pc]? = some i)
    (h : ∀ s, S.At p s → ∃ t, State.Effect S.limits i s.advance t ∧ S.At q t) :
  S.Steps p q
  := by
  intro s hs
  obtain ⟨t, heffect, ht⟩ := h s hs
  use t
  constructor
  · rw [hs.cycle hi]
    apply heffect.execute
  · apply ht

section

variable {env : Env} {pc : Nat} {stack : List Int}

theorem steps_loadc {value : Int} (hi : S.code[pc]? = some (.loadc value)) :
  S.Steps ⟨env, pc, stack⟩ ⟨env, pc + 1, value :: stack⟩
  := by
  apply steps_of_effect hi
  intro s hs
  use s.advance.push value, State.Effect.loadc value
  exact ⟨congrArg (· + 1) hs.pc, congrArg (value :: ·) hs.stack, hs.memory⟩

theorem steps_pop {w : Int} (hi : S.code[pc]? = some .pop) :
  S.Steps ⟨env, pc, w :: stack⟩ ⟨env, pc + 1, stack⟩
  := by
  apply steps_of_effect hi
  intro s hs
  use { s.advance with stack }, State.Effect.pop hs.stack
  exact ⟨congrArg (· + 1) hs.pc, rfl, hs.memory⟩

/-- A load at the slot of a name leaves the value of the variable. -/
theorem steps_load {name : Text} {slot : Nat} (hi : S.code[pc]? = some .load)
    (hslot : S.scope.slot? name = some slot) :
  S.Steps ⟨env, pc, (slot : Int) :: stack⟩ ⟨env, pc + 1, env name :: stack⟩
  := by
  apply steps_of_effect hi
  intro s hs
  have hroom : slot < S.limits.memory := Nat.lt_of_lt_of_le (Scope.lt_of_slot? hslot) S.room
  refine ⟨_, State.Effect.load hs.stack hroom, congrArg (· + 1) hs.pc, ?_, ?_⟩
  · simp only [getD_growTo]
    apply congrArg (· :: stack) (hs.memory name slot hslot)
  · intro name' slot' hslot'
    simp only [getD_growTo]
    apply hs.memory name' slot' hslot'

/-- A store at the slot of a name changes the value of the variable. -/
theorem steps_store {name : Text} {slot : Nat} {w : Int} (hi : S.code[pc]? = some .store)
    (hslot : S.scope.slot? name = some slot) :
  S.Steps ⟨env, pc, (slot : Int) :: w :: stack⟩
    ⟨Function.update env name w, pc + 1, w :: stack⟩
  := by
  apply steps_of_effect hi
  intro s hs
  have hroom : slot < S.limits.memory := Nat.lt_of_lt_of_le (Scope.lt_of_slot? hslot) S.room
  refine ⟨_, State.Effect.store hs.stack hroom, congrArg (· + 1) hs.pc, rfl, ?_⟩
  intro name' slot' hslot'
  simp only [getD_setIfInBounds_growTo]
  by_cases hname : name' = name
  · subst hname
    rw [hslot] at hslot'
    cases hslot'
    rw [if_pos rfl, Function.update_self]
  · rw [if_neg, Function.update_of_ne hname]
    · apply hs.memory name' slot' hslot'
    · rintro rfl
      apply hname (Scope.slot?_injective hslot' hslot)

theorem steps_jump {target : Nat} (hi : S.code[pc]? = some (.jump target)) :
  S.Steps ⟨env, pc, stack⟩ ⟨env, target, stack⟩
  := by
  apply steps_of_effect hi
  intro s hs
  exact ⟨_, State.Effect.jump target, rfl, hs.stack, hs.memory⟩

theorem steps_jumpz_taken {target : Nat} (hi : S.code[pc]? = some (.jumpz target)) :
  S.Steps ⟨env, pc, 0 :: stack⟩ ⟨env, target, stack⟩
  := by
  apply steps_of_effect hi
  intro s hs
  exact ⟨_, State.Effect.jumpzTaken target hs.stack, rfl, rfl, hs.memory⟩

theorem steps_jumpz_passed {target : Nat} {w : Int} (hi : S.code[pc]? = some (.jumpz target))
    (hw : w ≠ 0) :
  S.Steps ⟨env, pc, w :: stack⟩ ⟨env, pc + 1, stack⟩
  := by
  apply steps_of_effect hi
  intro s hs
  exact ⟨_, State.Effect.jumpzPassed target hs.stack hw, congrArg (· + 1) hs.pc, rfl,
    hs.memory⟩

theorem halts_halt (hi : S.code[pc]? = some .halt) :
  S.Halts ⟨env, pc, stack⟩ stack
  := by
  intro s hs
  use s.advance
  constructor
  · apply State.endsIn_of_halted
    rw [hs.cycle hi]
    rfl
  · apply hs.stack

theorem steps_binary {op : BinaryOperator} {a b w : Int}
    (hi : S.code[pc]? = some (.binary op)) (hw : op.apply a b = .ok w) :
  S.Steps ⟨env, pc, b :: a :: stack⟩ ⟨env, pc + 1, w :: stack⟩
  := by
  apply steps_of_effect hi
  intro s hs
  exact ⟨_, State.Effect.binary hs.stack hw, congrArg (· + 1) hs.pc, rfl, hs.memory⟩

theorem faults_binary {op : BinaryOperator} {a b : Int} {fault : Fault}
    (hi : S.code[pc]? = some (.binary op)) (hw : op.apply a b = .error fault) :
  S.Faults ⟨env, pc, b :: a :: stack⟩ fault
  := by
  intro s hs
  have hstack : s.advance.stack = b :: a :: stack := hs.stack
  refine ⟨s.pc, { s.advance with stack }, ?_⟩
  apply State.endsIn_of_faulted
  rw [hs.cycle hi]
  simp only [State.execute, State.withPop, hstack, hw, State.pushResult]

theorem steps_unary {op : UnaryOperator} {a w : Int} (hi : S.code[pc]? = some (.unary op))
    (hw : op.apply a = .ok w) :
  S.Steps ⟨env, pc, a :: stack⟩ ⟨env, pc + 1, w :: stack⟩
  := by
  apply steps_of_effect hi
  intro s hs
  exact ⟨_, State.Effect.unary hs.stack hw, congrArg (· + 1) hs.pc, rfl, hs.memory⟩

theorem faults_unary {op : UnaryOperator} {a : Int} {fault : Fault}
    (hi : S.code[pc]? = some (.unary op)) (hw : op.apply a = .error fault) :
  S.Faults ⟨env, pc, a :: stack⟩ fault
  := by
  intro s hs
  have hstack : s.advance.stack = a :: stack := hs.stack
  refine ⟨s.pc, { s.advance with stack }, ?_⟩
  apply State.endsIn_of_faulted
  rw [hs.cycle hi]
  simp only [State.execute, State.withPop, hstack, hw, State.pushResult]

/-! ### Variables -/

/-- Code that reads the slot of a name pushes the value of the variable. -/
theorem leads_readSlot {name : Text} {slot : Nat} (hcode : CodeAt S.code pc (readSlot slot))
    (hslot : S.scope.slot? name = some slot) :
  S.Leads ⟨env, pc, stack⟩ ⟨env, pc + 2, env name :: stack⟩
  := by
  obtain ⟨hloadc, hload, -⟩ := hcode
  apply (steps_loadc hloadc).leads.trans
  apply (steps_load hload hslot).leads

/-- Code that writes the slot of a name pops a value into the variable. -/
theorem leads_writeSlot {name : Text} {slot : Nat} {w : Int}
    (hcode : CodeAt S.code pc (writeSlot slot)) (hslot : S.scope.slot? name = some slot) :
  S.Leads ⟨env, pc, w :: stack⟩ ⟨Function.update env name w, pc + 3, stack⟩
  := by
  obtain ⟨hloadc, hstore, hpop, -⟩ := hcode
  apply (steps_loadc hloadc).leads.trans
  apply (steps_store hstore hslot).leads.trans
  apply (steps_pop hpop).leads

end

end Site

end Source

end StackMachine
