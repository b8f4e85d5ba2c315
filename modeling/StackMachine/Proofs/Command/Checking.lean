import Mathlib.Tactic.Use
import StackMachine.Proofs.Command.Runs

/-!
# Files that are valid

A file that is checked and one that is run are read, loaded and validated in the same way.  What
the check refuses is refused with the same outcome when it is run, before anything is changed.
What the check accepts can only be refused because of the configuration.
-/

namespace StackMachine

namespace Command

variable {pretty : Bool} {file : Text} {bytes : Except FileFailure Bytes} {outcome : Outcome}

/-! ### Programs that are loaded -/

/-- A program is loaded if its text is read and is that of a program in which validation finds
nothing wrong.  Otherwise the file cannot be read, or its contents are refused. -/
theorem loaded_cases (pretty : Bool) (file : Text) (bytes : Except FileFailure Bytes) :
  (∃ failure, bytes = .error failure
      ∧ loaded pretty file bytes = .error (fileProblem pretty "Error reading file" failure))
    ∨ (∃ b diagnostics, bytes = .ok b
      ∧ (∀ p, Program.ofFile (Utf8.decode b.toList) file = .ok p → validate p.toData ≠ .ok [])
      ∧ loaded pretty file bytes = .error (refusal pretty diagnostics))
    ∨ ∃ b program, bytes = .ok b ∧ Program.ofFile (Utf8.decode b.toList) file = .ok program
      ∧ validate program.toData = .ok [] ∧ loaded pretty file bytes = .ok program
  := by
  cases bytes with
  | error failure => exact .inl ⟨failure, rfl, rfl⟩
  | ok b =>
    right
    have hload : loaded pretty file (.ok b) = loadValidated pretty (Utf8.decode b.toList) file :=
      rfl
    rw [hload, loadValidated, loadProgram]
    cases hprogram : Program.ofFile (Utf8.decode b.toList) file with
    | error diagnostics => exact .inl ⟨b, diagnostics, rfl, by simp [hprogram], rfl⟩
    | ok program =>
      have hvalidated : (do validated pretty (← (Except.ok program).mapError (refusal pretty)))
          = validated pretty program := rfl
      rw [hvalidated, validated]
      cases hvalid : validate program.toData with
      | error e => exact .inl ⟨b, [], rfl, by simp [hprogram, hvalid], rfl⟩
      | ok diagnostics =>
        cases diagnostics with
        | nil => exact .inr ⟨b, program, rfl, hprogram, hvalid, rfl⟩
        | cons d r => exact .inl ⟨b, d :: r, rfl, by simp [hprogram, hvalid], rfl⟩

/-- A program that is not loaded fails, and prints nothing on the output. -/
theorem code_ne_zero_of_loaded (h : loaded pretty file bytes = .error outcome) :
  outcome.code ≠ 0 ∧ outcome.stdout = []
  := by
  rcases loaded_cases pretty file bytes with
    ⟨failure, -, hload⟩ | ⟨b, diagnostics, -, -, hload⟩ | ⟨b, p, -, -, -, hload⟩
  · cases hload.symm.trans h
    exact ⟨(by decide : Outcome.failed ≠ 0), rfl⟩
  · cases hload.symm.trans h
    exact ⟨(by decide : Outcome.refused ≠ 0), rfl⟩
  · cases hload.symm.trans h

/-- A program is loaded exactly if the file is read, its text is that of the program, and validation
finds nothing wrong. -/
theorem loaded_eq_ok_iff {program : Program} :
  loaded pretty file bytes = .ok program
    ↔ ∃ b, bytes = .ok b ∧ Program.ofFile (Utf8.decode b.toList) file = .ok program
      ∧ validate program.toData = .ok []
  := by
  rcases loaded_cases pretty file bytes with
    ⟨failure, rfl, hload⟩ | ⟨b, diagnostics, rfl, hrefused, hload⟩
      | ⟨b, p, rfl, hprogram, hvalid, hload⟩
  · rw [hload]
    constructor
    · rintro ⟨⟩
    · rintro ⟨_, ⟨⟩, -⟩
  · rw [hload]
    constructor
    · rintro ⟨⟩
    · rintro ⟨_, ⟨⟩, hprogram, hvalid⟩
      cases hrefused program hprogram hvalid
  · rw [hload]
    constructor
    · rintro ⟨⟩
      exact ⟨b, rfl, hprogram, hvalid⟩
    · rintro ⟨_, ⟨⟩, hprogram', -⟩
      cases hprogram.symm.trans hprogram'
      rfl

/-! ### Checking -/

theorem checkBytes_of_not_loaded (h : loaded pretty file bytes = .error outcome) :
  checkBytes pretty file bytes = outcome
  := by
  have hprogram : (do loadValidated pretty (← sourceText pretty bytes) file) = .error outcome := h
  rw [checkBytes]
  simp only [hprogram]

theorem checkBytes_of_loaded {program : Program} (h : loaded pretty file bytes = .ok program) :
  checkBytes pretty file bytes = checked pretty program
  := by
  have hprogram : (do loadValidated pretty (← sourceText pretty bytes) file) = .ok program := h
  rw [checkBytes]
  simp only [hprogram]

theorem code_checked (program : Program) :
  (checked pretty program).code = 0
  := by
  rw [checked]
  split
  · rfl
  · rfl

/-- A file that is not the input is run as the file that is checked. -/
theorem sourceOf_of_ne (h : file ≠ inputName) (world : World) :
  sourceOf file world = world.files.read world.work file
  := if_neg h

/-- Checking and running agree on what is a valid file.  If a file does not pass the check, which
then prints nothing on the output, a run of it has the same outcome and changes nothing: no file
for the trace is made or emptied.  If it passes, a run is refused only because of the
configuration. -/
theorem check_agrees_with_run (hfile : file ≠ inputName) (pretty : Bool) (world : World) :
  ∃ outcome, (check file pretty : StateM World _) world = (outcome, world)
    ∧ (outcome.code ≠ 0 → outcome.stdout = [] ∧ ∀ fuel trace maxSteps,
      (run fuel file trace maxSteps pretty : StateM World _) world = (some outcome, world))
    ∧ (outcome.code = 0 → ∀ fuel trace maxSteps ended after,
      (run fuel file trace maxSteps pretty : StateM World _) world = (some ended, after) →
      ended.code = Outcome.refused →
        (∃ message, ended = problem pretty Outcome.refused "E_CONFIG" message) ∧ after = world)
  := by
  refine ⟨_, check_eq file pretty world, ?invalid, ?valid⟩
  case invalid =>
    intro hcode
    cases hloaded : loaded pretty file (world.files.read world.work file) with
    | ok program =>
      rw [checkBytes_of_loaded hloaded] at hcode
      exact absurd (code_checked program) hcode
    | error outcome =>
      rw [checkBytes_of_not_loaded hloaded]
      use (code_ne_zero_of_loaded hloaded).2
      intro fuel trace maxSteps
      apply run_of_not_loaded
      rw [sourceOf_of_ne hfile, hloaded]
  case valid =>
    intro hcode fuel trace maxSteps ended after hrun hended
    cases hloaded : loaded pretty file (world.files.read world.work file) with
    | error outcome =>
      rw [checkBytes_of_not_loaded hloaded] at hcode
      exact absurd hcode (code_ne_zero_of_loaded hloaded).1
    | ok program =>
      rw [← sourceOf_of_ne hfile] at hloaded
      cases hconfig : configIn pretty world with
      | error outcome =>
        rw [run_of_no_config hloaded hconfig] at hrun
        cases hrun
        exact ⟨eq_problem_of_configIn hconfig, rfl⟩
      | ok found =>
        obtain ⟨config, origin⟩ := found
        rw [run_of_config hloaded hconfig] at hrun
        have hcodes := endsAsRun_tracedExecution _ _ _ _ _ _ _ (congrArg Prod.fst hrun)
        rw [hended] at hcodes
        exact absurd hcodes
          (by decide : ¬ (Outcome.refused = 0 ∨ Outcome.refused = Outcome.failed))

/-- A world with a program, an old trace, and a configuration of the project that is no JSON. -/
def worldToRun (source : Text) : World :=
  { files := [([Text.ofString ".tallyrc.json"], .file (Utf8.encode "[").toArray),
      ([Text.ofString "p.tasm"], .file (Utf8.encode source).toArray),
      ([Text.ofString "t"], .file #[1, 2, 3])]
    work := [], home := [Text.ofString "home"], input := #[], clock := 0, runId := "r" }

/-- A program that jumps past its end is refused by both commands, and the old trace is kept.  One
that passes the check is not run under the configuration. -/
theorem check_agrees_with_run_jumps_out :
  (∃ outcome, outcome.code = Outcome.refused
    ∧ (check "p.tasm" false : StateM World _) (worldToRun "jump 7\n")
      = (outcome, worldToRun "jump 7\n")
    ∧ (run 9 "p.tasm" (some "t") none false : StateM World _) (worldToRun "jump 7\n")
      = (some outcome, worldToRun "jump 7\n"))
  ∧ ∃ message, (run 9 "p.tasm" (some "t") none false : StateM World _) (worldToRun "halt\n")
    = (some (problem false Outcome.refused "E_CONFIG" message), worldToRun "halt\n")
  := by
  have hfile : Text.ofString "p.tasm" ≠ inputName := by decide
  constructor
  · obtain ⟨outcome, hcheck, hinvalid, -⟩ := check_agrees_with_run hfile false
      (worldToRun "jump 7\n")
    have hcode : outcome.code = Outcome.refused := by
      rw [← congrArg (fun r => r.1.code) hcheck]
      decide +kernel
    have hfails : outcome.code ≠ 0 := by
      rw [hcode]
      decide
    exact ⟨outcome, hcode, hcheck, (hinvalid hfails).2 9 (some "t") none⟩
  · obtain ⟨outcome, hcheck, -, hvalid⟩ := check_agrees_with_run hfile false
      (worldToRun "halt\n")
    have hcode : outcome.code = 0 := by
      rw [← congrArg (fun r => r.1.code) hcheck]
      decide +kernel
    have hrefused : ((run 9 "p.tasm" (some "t") none false : StateM World _)
        (worldToRun "halt\n")).1.map (·.code) = some Outcome.refused := by
      decide +kernel
    rcases hrun : (run 9 "p.tasm" (some "t") none false : StateM World _)
        (worldToRun "halt\n") with ⟨ended, after⟩
    rw [hrun] at hrefused
    obtain ⟨ended, rfl, hended⟩ := Option.map_eq_some_iff.mp hrefused
    obtain ⟨⟨message, rfl⟩, rfl⟩ := hvalid hcode 9 (some "t") none ended after hrun hended
    exact ⟨message, rfl⟩

end Command

end StackMachine
