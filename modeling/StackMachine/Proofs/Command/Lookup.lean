import StackMachine.Command.Loading

/-!
# Looking up the configuration

The configuration that is in force in a world depends only on what is found at two paths, and
looking it up changes nothing.  It is refused with one code and under one name.
-/

namespace StackMachine

namespace Command

/-- What is read at a path of a world, if there is anything. -/
def foundAt (path : Text) (world : World) : Option (Except FileFailure Bytes) :=
  if world.files.contains world.work path then some (world.files.read world.work path) else none

/-- The configuration in what is found at a path. -/
def configFound (pretty : Bool) (path : Text) :
    Option (Except FileFailure Bytes) → Except Outcome (Option Config)
  | none => .ok none
  | some (.error failure) => .error ((ConfigFailure.unreadable failure).outcome pretty path)
  | some (.ok bytes) =>
    match readConfig (Utf8.decode bytes.toList) with
    | .ok config => .ok (some config)
    | .error failure => .error (failure.outcome pretty path)

/-- The path of the configuration of the project. -/
def projectPath (world : World) : Text := pathIn (World.pathOf world.work) ".tallyrc.json"

/-- The path of the configuration of the user. -/
def userPath (world : World) : Text := pathIn (World.pathOf world.home) ".tally/config.json"

/-- The configuration that is in force, from what is found at the paths of the two files. -/
def chosen (pretty : Bool) (project user : Text) (first second : Option (Except FileFailure Bytes)) :
    Except Outcome (Config × Origin) :=
  match configFound pretty project first with
  | .error outcome => .error outcome
  | .ok (some config) => .ok (config, .project project)
  | .ok none =>
    match configFound pretty user second with
    | .error outcome => .error outcome
    | .ok (some config) => .ok (config, .user user)
    | .ok none => .ok (Config.default, .defaults)

/-- The configuration that is in force in a world. -/
def configIn (pretty : Bool) (world : World) : Except Outcome (Config × Origin) :=
  chosen pretty (projectPath world) (userPath world) (foundAt (projectPath world) world)
    (foundAt (userPath world) world)

theorem configAt_eq (pretty : Bool) (path : Text) (world : World) :
  (configAt pretty path : StateM World _) world
    = (configFound pretty path (foundAt path world), world)
  := by
  simp only [configAt, foundAt, bind, StateT.bind, Environment.fileExists, Environment.read]
  split
  · simp only [StateT.bind]
    cases world.files.read world.work path with
    | error failure => rfl
    | ok bytes =>
      simp only [configFound, bind]
      cases readConfig (Utf8.decode bytes.toList) with
      | ok config => rfl
      | error failure => rfl
  · rfl

/-- Looking up the configuration changes nothing. -/
theorem resolveConfig_eq (pretty : Bool) (world : World) :
  (resolveConfig pretty : StateM World _) world = (configIn pretty world, world)
  := by
  simp only [resolveConfig, bind, StateT.bind, Environment.workDirectory,
    Environment.homeDirectory, configAt_eq, configIn, chosen]
  rw [← projectPath]
  cases configFound pretty (projectPath world) (foundAt (projectPath world) world) with
  | error outcome => rfl
  | ok o =>
    cases o with
    | some config => rfl
    | none =>
      simp only [StateT.bind, configAt_eq]
      rw [← userPath]
      cases configFound pretty (userPath world) (foundAt (userPath world) world) with
      | error outcome => rfl
      | ok o =>
        cases o with
        | some config => rfl
        | none => rfl

/-- The configuration that is in force is the first that is found, or there is none; and a file that
cannot serve as one is the outcome. -/
theorem configIn_cases (pretty : Bool) (world : World) :
  (∃ path found outcome, configFound pretty path found = .error outcome
      ∧ configIn pretty world = .error outcome)
    ∨ (∃ path found config origin, configFound pretty path found = .ok (some config)
      ∧ configIn pretty world = .ok (config, origin))
    ∨ configIn pretty world = .ok (Config.default, .defaults)
  := by
  rw [configIn, chosen]
  split
  · next hfound => exact .inl ⟨_, _, _, hfound, rfl⟩
  · next hfound => exact .inr (.inl ⟨_, _, _, _, hfound, rfl⟩)
  · split
    · next hfound => exact .inl ⟨_, _, _, hfound, rfl⟩
    · next hfound => exact .inr (.inl ⟨_, _, _, _, hfound, rfl⟩)
    · exact .inr (.inr rfl)

/-! ### Paths -/

/-- The path of a file in a directory ends with the separator and the name of the file. -/
theorem suffix_pathIn (directory name : Text) :
  Store.separator :: name <:+ pathIn directory name
  := by
  rw [pathIn]
  split
  · next h =>
    obtain ⟨before, rfl⟩ := List.getLast?_eq_some_iff.mp h
    rw [List.append_assoc]
    exact ⟨before, rfl⟩
  · exact ⟨directory, rfl⟩

theorem suffix_projectPath (world : World) :
  Store.separator :: Text.ofString ".tallyrc.json" <:+ projectPath world
  := suffix_pathIn _ _

theorem suffix_userPath (world : World) :
  Store.separator :: Text.ofString "config.json" <:+ userPath world
  := by
  obtain ⟨before, hbefore⟩ := suffix_pathIn (World.pathOf world.home) ".tally/config.json"
  refine ⟨before ++ Store.separator :: Text.ofString ".tally", ?_⟩
  rw [userPath, ← hbefore, List.append_assoc]
  rfl

/-! ### Refusals -/

variable {pretty : Bool} {outcome : Outcome}

theorem eq_problem_of_configFound {path : Text} {found : Option (Except FileFailure Bytes)}
    (h : configFound pretty path found = .error outcome) :
  ∃ message, outcome = problem pretty Outcome.refused "E_CONFIG" message
  := by
  rw [configFound.eq_def] at h
  split at h
  · cases h
  · cases h
    exact ⟨_, rfl⟩
  · split at h
    · cases h
    · cases h
      exact ⟨_, rfl⟩

/-- A configuration is refused with one code and under one name. -/
theorem eq_problem_of_configIn {world : World} (h : configIn pretty world = .error outcome) :
  ∃ message, outcome = problem pretty Outcome.refused "E_CONFIG" message
  := by
  rcases configIn_cases pretty world with
    ⟨_, _, _, hfound, heq⟩ | ⟨_, _, _, _, -, heq⟩ | heq
  · cases heq.symm.trans h
    apply eq_problem_of_configFound hfound
  · cases heq.symm.trans h
  · cases heq.symm.trans h

end Command

end StackMachine
