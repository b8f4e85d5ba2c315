import StackMachine.Command.Check
import StackMachine.Command.Run
import StackMachine.Proofs.Command.Lookup

/-!
# Runs of files

A file is run in three stages.  The program is loaded and the configuration is looked up, which
changes nothing; the file for the trace is opened; and the machine is made and runs, which fails
only with one code.  What every write of a trace respects is respected by the whole of the last
stage.
-/

namespace StackMachine

/-! ### Properties of computations -/

/-- A property of computations that doing nothing has, and doing one thing after another if each
has it. -/
structure Composes {m : Type → Type} [Monad m] (C : (α : Type) → m α → Prop) : Prop where
  pure : ∀ {α : Type} (a : α), C α (Pure.pure a)
  bind : ∀ {α β : Type} {x : m α} {f : α → m β}, C α x → (∀ a, C β (f a)) → C β (x >>= f)

namespace Composes

variable {m : Type → Type} [Monad m] {C : (α : Type) → m α → Prop} (h : Composes C)
  {emit : Event → m Unit} (hemit : ∀ e, C Unit (emit e))

include h hemit

theorem finish (outcome : StackMachine.Outcome) (s : State) :
  C _ (State.finish emit outcome s)
  := h.bind (hemit _) fun _ => h.pure _

/-- A run has the properties of what its observer does with each event. -/
theorem runFrom (limits : Limits) (code : Array (Instruction Nat)) (fuel : Nat) (s : State) :
  C _ (State.runFrom emit limits code fuel s)
  := by
  induction fuel generalizing s with
  | zero => apply h.pure
  | succ fuel ih =>
    rw [State.runFrom]
    split
    · apply h.finish hemit
    · apply h.bind (hemit _)
      intro _
      split
      · apply ih
      · apply h.finish hemit
      · apply h.finish hemit

theorem runCode (limits : Limits) (code : Code) (fuel : Nat) :
  C _ (StackMachine.runCode emit limits code fuel)
  := h.bind (hemit _) fun _ => h.runFrom hemit limits code.toArray fuel .initial

end Composes

namespace Command

/-! ### The stages of a run -/

/-- Computations in a world that can fail with an outcome. -/
abbrev Attempt (α : Type) : Type := ExceptT Outcome (StateM World) α

section

variable {α β : Type} {x : Attempt α} {world after : World}

theorem run_lift {a : α} {y : StateM World α} (h : y world = (a, after)) :
  (liftM y : Attempt α).run world = (.ok a, after)
  := by
  change (Except.ok (y world).1, (y world).2) = _
  rw [h]

theorem run_bind_ok {a : α} (h : x.run world = (.ok a, after)) (f : α → Attempt β) :
  (x >>= f).run world = (f a).run after
  := by
  rw [ExceptT.run_bind]
  simp only [bind, StateT.bind, h]

/-- What comes after a failure is not done. -/
theorem run_bind_error {outcome : Outcome} (h : x.run world = (.error outcome, after))
    (f : α → Attempt β) :
  (x >>= f).run world = (.error outcome, after)
  := by
  rw [ExceptT.run_bind]
  simp only [bind, StateT.bind, h]
  rfl

end

/-- The program of what was read from a file, in which validation finds nothing wrong. -/
def loaded (pretty : Bool) (file : Text) (bytes : Except FileFailure Bytes) :
    Except Outcome Program := do
  loadValidated pretty (← sourceText pretty bytes) file

/-- What a world holds for a file that is to be run. -/
def sourceOf (file : Text) (world : World) : Except FileFailure Bytes :=
  if file = inputName then .ok world.input else world.files.read world.work file

/-- The last stage of a run: a machine is made, and runs. -/
def execution (fuel : Nat) (program : Program) (limits : LimitOptions) (pretty : Bool)
    (writer : Option (Writer (StateM World))) : Attempt (Option Outcome) := do
  let runId ← Environment.runId (m := StateM World)
  let machine ← ExceptT.mk (pure (machine pretty program limits runId))
  let result ← runCode (writeEvent pretty runId writer) machine.limits machine.code fuel
  return result.map (finished pretty)

/-- The last two stages of a run: the file for the trace is opened first. -/
def tracedExecution (fuel : Nat) (program : Program) (trace : Option Text)
    (limits : LimitOptions) (pretty : Bool) : Attempt (Option Outcome) := do
  let writer ← openTrace pretty trace
  execution fuel program limits pretty writer

/-- The outcome of what can fail. -/
def outcomeOf (r : Except Outcome (Option Outcome)) : Option Outcome :=
  match r with
  | .ok outcome => outcome
  | .error outcome => some outcome

theorem check_eq (file : Text) (pretty : Bool) (world : World) :
  (check file pretty : StateM World _) world
    = (checkBytes pretty file (world.files.read world.work file), world)
  := rfl

section

variable {fuel : Nat} {file : Text} {trace : Option Text} {maxSteps : Option Number}
  {pretty : Bool} {world : World}

theorem findConfig_eq :
  (ExceptT.mk (resolveConfig pretty) : Attempt (Config × Origin)).run world
    = (configIn pretty world, world)
  := resolveConfig_eq pretty world

theorem run_eq_runFile :
  (run fuel file trace maxSteps pretty : StateM World _) world
    = (outcomeOf ((runFile fuel file trace maxSteps pretty : Attempt _).run world).1,
      ((runFile fuel file trace maxSteps pretty : Attempt _).run world).2)
  := by
  simp only [run, bind, StateT.bind]
  rcases (runFile fuel file trace maxSteps pretty : Attempt _).run world with ⟨r | o, after⟩
  · rfl
  · rfl

theorem readText_eq :
  (ExceptT.mk (sourceText pretty <$> readSource file) : Attempt Text).run world
    = (sourceText pretty (sourceOf file world), world)
  := by
  simp only [readSource, sourceOf]
  split
  · rfl
  · rfl

/-- If the program cannot be loaded, nothing else is done. -/
theorem run_of_not_loaded {outcome : Outcome}
    (h : loaded pretty file (sourceOf file world) = .error outcome) :
  (run fuel file trace maxSteps pretty : StateM World _) world = (some outcome, world)
  := by
  have hfails : (runFile fuel file trace maxSteps pretty : Attempt _).run world
      = (.error outcome, world) := by
    rw [loaded] at h
    cases hsource : sourceText pretty (sourceOf file world) with
    | error failure =>
      rw [hsource] at h
      cases h
      exact run_bind_error (readText_eq.trans (congrArg (·, world) hsource)) _
    | ok source =>
      rw [hsource] at h
      have hprogram : loadValidated pretty source file = .error outcome := h
      rw [runFile, run_bind_ok (readText_eq.trans (congrArg (·, world) hsource)), hprogram]
      exact run_bind_error rfl _
  rw [run_eq_runFile, hfails]
  rfl

/-- If the program is loaded, the configuration is looked up. -/
theorem runFile_of_loaded {program : Program}
    (h : loaded pretty file (sourceOf file world) = .ok program) :
  (runFile fuel file trace maxSteps pretty : Attempt _).run world
    = (do
        let (config, _) ← ExceptT.mk (resolveConfig pretty)
        tracedExecution fuel program trace (limitOptions maxSteps config) pretty
        : Attempt _).run world
  := by
  rw [loaded] at h
  cases hsource : sourceText pretty (sourceOf file world) with
  | error failure =>
    rw [hsource] at h
    cases h
  | ok source =>
    rw [hsource] at h
    have hprogram : loadValidated pretty source file = .ok program := h
    rw [runFile, run_bind_ok (readText_eq.trans (congrArg (·, world) hsource)), hprogram]
    exact run_bind_ok rfl _

theorem run_of_no_config {program : Program} {outcome : Outcome}
    (h : loaded pretty file (sourceOf file world) = .ok program)
    (hconfig : configIn pretty world = .error outcome) :
  (run fuel file trace maxSteps pretty : StateM World _) world = (some outcome, world)
  := by
  rw [run_eq_runFile, runFile_of_loaded h,
    run_bind_error (findConfig_eq.trans (congrArg (·, world) hconfig))]
  rfl

theorem run_of_config {program : Program} {config : Config} {origin : Origin}
    (h : loaded pretty file (sourceOf file world) = .ok program)
    (hconfig : configIn pretty world = .ok (config, origin)) :
  (run fuel file trace maxSteps pretty : StateM World _) world
    = (outcomeOf ((tracedExecution fuel program trace (limitOptions maxSteps config)
        pretty).run world).1,
      ((tracedExecution fuel program trace (limitOptions maxSteps config) pretty).run world).2)
  := by
  rw [run_eq_runFile, runFile_of_loaded h,
    run_bind_ok (findConfig_eq.trans (congrArg (·, world) hconfig))]

end

/-! ### The last stage -/

/-- A property that what a run asks of a world has, and every failure with the code of runs. -/
structure Respected (C : (α : Type) → Attempt α → Prop) : Prop extends Composes C where
  fail : ∀ {α : Type} {outcome : Outcome}, outcome.code = Outcome.failed → C α (throw outcome)
  now : C Int (liftM (Environment.now : StateM World Int))
  runId : C Text (liftM (Environment.runId : StateM World Text))

namespace Respected

variable {C : (α : Type) → Attempt α → Prop} (h : Respected C) {pretty : Bool}

include h

/-- A machine that cannot be made is a failure of a run. -/
theorem machine (program : Program) (limits : LimitOptions) (runId : Text) :
  C _ (ExceptT.mk (pure (Command.machine pretty program limits runId)))
  := by
  rw [Command.machine]
  cases Machine.create program.toData { toLimitOptions := limits, runId } with
  | ok machine => exact h.pure machine
  | error e => exact h.fail rfl

variable {writer : Option (Writer (StateM World))}
  (hwriter : ∀ write ∈ writer, ∀ bytes, C _ (liftM (write bytes)))

include hwriter

theorem writeEvent (runId : Text) (e : Event) :
  C Unit (Command.writeEvent pretty runId writer e)
  := by
  cases writer with
  | none => apply h.pure
  | some write =>
    apply h.bind h.now
    intro time
    apply h.bind (hwriter write rfl _)
    intro result
    cases result with
    | ok => apply h.pure
    | error failure => apply h.fail rfl

theorem execution (fuel : Nat) (program : Program) (limits : LimitOptions) :
  C _ (Command.execution fuel program limits pretty writer)
  := by
  apply h.bind h.runId
  intro runId
  apply h.bind (h.machine program limits runId)
  intro machine
  apply h.bind (h.runCode (h.writeEvent hwriter runId) machine.limits machine.code fuel)
  intro result
  apply h.pure

end Respected

/-! ### Codes of runs -/

/-- A computation whose only failures are those of runs. -/
def FailsAsRun (α : Type) (x : Attempt α) : Prop :=
  ∀ world outcome, (x.run world).1 = .error outcome → outcome.code = Outcome.failed

theorem failsAsRun_lift {α : Type} (x : StateM World α) :
  FailsAsRun α (liftM x)
  := by
  rintro world outcome ⟨⟩

theorem composes_failsAsRun :
  Composes FailsAsRun
  := by
  constructor
  case pure =>
    rintro α a world outcome ⟨⟩
  case bind =>
    intro α β x f hx hf world outcome h
    rcases hrun : x.run world with ⟨r | a, after⟩
    · rw [run_bind_error hrun] at h
      cases h
      apply hx world outcome (congrArg Prod.fst hrun)
    · rw [run_bind_ok hrun] at h
      apply hf a after outcome h

theorem respected_failsAsRun :
  Respected FailsAsRun
  := by
  refine ⟨composes_failsAsRun, ?fail, failsAsRun_lift _, failsAsRun_lift _⟩
  case fail =>
    rintro α outcome hcode world _ ⟨⟩
    exact hcode

theorem failsAsRun_openTrace (pretty : Bool) (trace : Option Text) :
  FailsAsRun _ (openTrace pretty trace)
  := by
  rw [openTrace]
  split
  · apply composes_failsAsRun.pure
  · apply composes_failsAsRun.bind (failsAsRun_lift _)
    intro result
    cases result with
    | ok write => apply composes_failsAsRun.pure
    | error failure => apply respected_failsAsRun.fail rfl

/-- A computation whose outcome is success or a failure of a run. -/
def EndsAsRun (x : Attempt (Option Outcome)) : Prop :=
  ∀ world outcome, outcomeOf (x.run world).1 = some outcome →
    outcome.code = 0 ∨ outcome.code = Outcome.failed

theorem FailsAsRun.endsAsRun_bind {α : Type} {x : Attempt α} {f : α → Attempt (Option Outcome)}
    (hx : FailsAsRun α x) (hf : ∀ a, EndsAsRun (f a)) :
  EndsAsRun (x >>= f)
  := by
  intro world outcome h
  rcases hrun : x.run world with ⟨r | a, after⟩
  · rw [run_bind_error hrun] at h
    cases h
    exact .inr (hx world outcome (congrArg Prod.fst hrun))
  · rw [run_bind_ok hrun] at h
    apply hf a after outcome h

theorem endsAsRun_finished (pretty : Bool) (result : Option Finished) :
  EndsAsRun (pure (result.map (finished pretty)))
  := by
  intro world outcome h
  obtain ⟨f, -, rfl⟩ := Option.map_eq_some_iff.mp h
  rw [finished]
  split
  · exact .inl rfl
  · exact .inr rfl

/-- What comes after the configuration succeeds or fails with the code of runs. -/
theorem endsAsRun_tracedExecution (fuel : Nat) (program : Program) (trace : Option Text)
    (limits : LimitOptions) (pretty : Bool) :
  EndsAsRun (tracedExecution fuel program trace limits pretty)
  := by
  apply (failsAsRun_openTrace pretty trace).endsAsRun_bind
  intro writer
  apply (failsAsRun_lift _).endsAsRun_bind
  intro runId
  apply (respected_failsAsRun.machine program limits runId).endsAsRun_bind
  intro machine
  have hwriter : ∀ write ∈ writer, ∀ bytes, FailsAsRun _ (liftM (write bytes)) :=
    fun write _ bytes => failsAsRun_lift (write bytes)
  apply (composes_failsAsRun.runCode (respected_failsAsRun.writeEvent hwriter runId)
    machine.limits machine.code fuel).endsAsRun_bind
  apply endsAsRun_finished

end Command

end StackMachine
