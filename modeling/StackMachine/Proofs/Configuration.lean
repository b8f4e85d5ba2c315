import StackMachine.Command.Run
import StackMachine.Proofs.Command.Lookup
import StackMachine.Proofs.Machine.Options
import StackMachine.Proofs.Structure

/-!
# Limits from configurations

A configuration that is accepted sets limits that are natural numbers, of any size, and a machine
takes only those up to the greatest safe integer.  So a machine can be made with the limits of an
accepted configuration exactly if all of them are safe, and it is refused because of a limit
otherwise.
-/

namespace StackMachine

/-! ### Options -/

namespace Limits

variable {x : Number} {n : Nat} (h : x.toInt? = some (n : Int))

include h in
/-- A natural number is a limit of a size if it is safe. -/
theorem isSome_size?_iff :
  (size? (.number x)).isSome = true ↔ x.le (.ofNat Number.maxSafe) = true
  := by
  rw [Number.ofNat, Number.le_int_iff h, Int.ofNat_le]
  cases x with
  | int | negativeZero =>
    rw [size?, Number.toSafeInt?_eq h, Int.natAbs_natCast]
    · by_cases hsafe : n ≤ Number.maxSafe
      · simp [hsafe]
      · simp [hsafe]
    · rintro ⟨⟩
  | fraction | infinity | nan => cases h

include h in
/-- A positive natural number is a limit of the steps if it is safe. -/
theorem isSome_steps?_iff (hpos : 0 < n) :
  (steps? (.number x)).isSome = true ↔ x.le (.ofNat Number.maxSafe) = true
  := by
  rw [steps?, Number.toSafeInt?_eq h, Number.ofNat, Number.le_int_iff h, Int.natAbs_natCast,
    Int.ofNat_le]
  by_cases hsafe : n ≤ Number.maxSafe
  · simp [hsafe, hpos]
  · simp [hsafe]

/-- Options set limits if each of them does. -/
theorem exists_ofOptions_iff {options : LimitOptions} :
  (∃ limits, ofOptions options = .ok limits)
    ↔ (steps? options.maxSteps).isSome = true ∧ (size? options.memoryLimit).isSome = true
      ∧ (size? options.heapLimit).isSome = true
  := by
  constructor
  · rintro ⟨limits, hlimits⟩
    obtain ⟨hsteps, hmemory, hheap⟩ := ofOptions_eq_ok hlimits
    rw [hsteps, hmemory, hheap]
    exact ⟨rfl, rfl, rfl⟩
  · rintro ⟨hsteps, hmemory, hheap⟩
    obtain ⟨maxSteps, hsteps⟩ := Option.isSome_iff_exists.mp hsteps
    obtain ⟨memory, hmemory⟩ := Option.isSome_iff_exists.mp hmemory
    obtain ⟨heap, hheap⟩ := Option.isSome_iff_exists.mp hheap
    use ⟨maxSteps, memory, heap⟩
    rw [ofOptions, hsteps, hmemory, hheap]
    rfl

end Limits

/-! ### Configurations -/

namespace Config

/-- The limits that a configuration sets. -/
def numbers (c : Config) : List Number := c.maxSteps.toList ++ [c.memoryLimit, c.heapLimit]

/-- A configuration whose limits are natural numbers, and which allows one step. -/
structure IsWhole (c : Config) : Prop where
  maxSteps : ∀ x, c.maxSteps = some x → ∃ n : Nat, 0 < n ∧ x.toInt? = some (n : Int)
  memoryLimit : ∃ n : Nat, c.memoryLimit.toInt? = some (n : Int)
  heapLimit : ∃ n : Nat, c.heapLimit.toInt? = some (n : Int)

/-- The options of a configuration set limits exactly if its limits are safe. -/
theorem IsWhole.exists_ofOptions_iff {c : Config} (h : c.IsWhole) :
  (∃ limits, Limits.ofOptions c.toOptions = .ok limits)
    ↔ ∀ x ∈ c.numbers, x.le (.ofNat Number.maxSafe) = true
  := by
  obtain ⟨memory, hmemory⟩ := h.memoryLimit
  obtain ⟨heap, hheap⟩ := h.heapLimit
  rw [Limits.exists_ofOptions_iff, numbers, List.forall_mem_append, toOptions,
    Limits.isSome_size?_iff hmemory, Limits.isSome_size?_iff hheap]
  cases hsteps : c.maxSteps with
  | none => simp [Limits.steps?]
  | some x =>
    obtain ⟨n, hpos, hn⟩ := h.maxSteps x hsteps
    simp [Limits.isSome_steps?_iff hn hpos]

theorem isWhole_default :
  Config.default.IsWhole
  := by
  constructor
  · rintro x ⟨⟩
  · exact ⟨Limits.defaultSize, rfl⟩
  · exact ⟨Limits.defaultSize, rfl⟩

end Config

namespace Settings

/-- A number with which nothing is wrong in a field is an integer that is not too small. -/
theorem exists_of_fieldFlaws {setting : Setting} {x : Number}
    (h : fieldFlaws setting (.number x) = []) :
  ∃ n : Int, x.toInt? = some n ∧ setting.tooSmall x = false
  := by
  have hflaws : fieldFlaws setting (.number x) = (if x.isInteger then [] else [.fraction setting])
      ++ (if setting.tooSmall x then [.tooSmall setting] else []) := by
    cases x with
    | nan => cases h
    | _ => rfl
  rw [hflaws] at h
  obtain ⟨hinteger, hsmall⟩ := List.append_eq_nil_iff.mp h
  cases hn : x.toInt? with
  | none => simp [Number.isInteger, hn] at hinteger
  | some n =>
    refine ⟨n, rfl, ?_⟩
    cases h' : setting.tooSmall x with
    | false => rfl
    | true => simp [h'] at hsmall

/-- Nothing is wrong with a field of a configuration with which nothing is wrong. -/
theorem fieldFlaws_eq_nil {d : Datum} (h : flaws d = []) (setting : Setting) :
  fieldFlaws setting (d.field setting.name) = []
  := by
  cases d with
  | record fields =>
    have hown : (Setting.all.flatMap fun s =>
        fieldFlaws s ((Datum.record fields).field s.name)) = [] := by
      simp only [flaws] at h
      split at h
      · apply h
      · apply (List.append_eq_nil_iff.mp h).1
    apply List.flatMap_eq_nil_iff.mp hown
    cases setting <;> simp [Setting.all]
  | _ => cases h

/-- What an accepted configuration sets in a field is an integer that is not too small. -/
theorem exists_of_number? {d : Datum} (h : flaws d = []) {setting : Setting} {x : Number}
    (hx : number? d setting = some x) :
  ∃ n : Int, x.toInt? = some n ∧ setting.tooSmall x = false
  := by
  have hfield := fieldFlaws_eq_nil h setting
  rw [number?] at hx
  split at hx
  · next y hy =>
    cases hx
    rw [hy] at hfield
    apply exists_of_fieldFlaws hfield
  · cases hx

/-- What an accepted configuration sets as a size is a natural number. -/
theorem exists_size_of_number? {d : Datum} (h : flaws d = []) {setting : Setting} {x : Number}
    (hsize : setting ≠ .maxSteps) (hx : number? d setting = some x) :
  ∃ n : Nat, x.toInt? = some (n : Int)
  := by
  obtain ⟨n, hn, hsmall⟩ := exists_of_number? h hx
  have hle : Number.le (.int 0) x = true := by
    cases setting with
    | maxSteps => cases hsize rfl
    | memoryLimit | heapLimit => simpa [Setting.tooSmall] using hsmall
  obtain ⟨k, rfl⟩ := Int.eq_ofNat_of_zero_le ((Number.int_le_iff hn 0).mp hle)
  use k

/-- What an accepted configuration sets for the steps is a positive natural number. -/
theorem exists_steps_of_number? {d : Datum} (h : flaws d = []) {x : Number}
    (hx : number? d .maxSteps = some x) :
  ∃ n : Nat, 0 < n ∧ x.toInt? = some (n : Int)
  := by
  obtain ⟨n, hn, hsmall⟩ := exists_of_number? h hx
  have hpos : 0 < n := by
    by_contra hle
    have hle := (Number.le_int_iff hn 0).mpr (Int.not_lt.mp hle)
    rw [Setting.tooSmall, hle] at hsmall
    cases hsmall
  obtain ⟨k, rfl⟩ := Int.eq_ofNat_of_zero_le (Int.le_of_lt hpos)
  exact ⟨k, Int.natCast_pos.mp hpos, hn⟩

/-- A natural number, or the one that stands in its place, is a natural number. -/
theorem exists_getD {o : Option Number}
    (ho : ∀ x, o = some x → ∃ n : Nat, x.toInt? = some (n : Int))
    (k : Nat) :
  ∃ n : Nat, (o.getD (.ofNat k)).toInt? = some (n : Int)
  := by
  cases o with
  | none => exact ⟨k, rfl⟩
  | some x => apply ho x rfl

/-- The limits of a configuration that is accepted are natural numbers. -/
theorem isWhole_of_ofDatum {d : Datum} {s : Settings} (h : ofDatum d = .ok s) :
  (Config.ofSettings s).IsWhole
  := by
  rw [ofDatum] at h
  split at h
  · next hflaws =>
    cases h
    constructor
    · intro x hx
      apply exists_steps_of_number? hflaws hx
    · apply exists_getD
      intro x hx
      apply exists_size_of_number? hflaws _ hx
      rintro ⟨⟩
    · apply exists_getD
      intro x hx
      apply exists_size_of_number? hflaws _ hx
      rintro ⟨⟩
  · cases h

end Settings

namespace Command

/-- The limits of a text that is accepted as a configuration are natural numbers. -/
theorem isWhole_of_readConfig {t : Text} {c : Config} (h : readConfig t = .ok c) :
  c.IsWhole
  := by
  rw [readConfig] at h
  split at h
  · cases h
  · next v _ =>
    cases hs : Settings.ofDatum (.ofJson v) with
    | error flaws =>
      rw [hs] at h
      cases h
    | ok s =>
      rw [hs] at h
      cases h
      apply Settings.isWhole_of_ofDatum hs

/-- The limits of a configuration that is found at a path are natural numbers. -/
theorem isWhole_of_configFound {pretty : Bool} {path : Text}
    {found : Option (Except FileFailure Bytes)} {c : Config}
    (h : configFound pretty path found = .ok (some c)) :
  c.IsWhole
  := by
  rw [configFound.eq_def] at h
  split at h
  · cases h
  · cases h
  · split at h
    · next hread =>
      cases h
      apply isWhole_of_readConfig hread
    · cases h

/-- The limits of the configuration that is in force are natural numbers. -/
theorem resolveConfig_isWhole (pretty : Bool) (world : World) :
  ∃ r, (resolveConfig pretty : StateM World _) world = (r, world)
    ∧ ∀ c origin, r = .ok (c, origin) → c.IsWhole
  := by
  refine ⟨_, resolveConfig_eq pretty world, ?_⟩
  intro c origin h
  rcases configIn_cases pretty world with
    ⟨_, _, _, -, heq⟩ | ⟨_, _, _, _, hfound, heq⟩ | heq
  · cases heq.symm.trans h
  · cases heq.symm.trans h
    apply isWhole_of_configFound hfound
  · cases heq.symm.trans h
    apply Config.isWhole_default

/-- The machine of a program without structural faults is made or refused by its limits alone. -/
theorem create_eq_of_checkStructure {data : List Datum} (hdata : checkStructure data = some [])
    (options : MachineOptions) :
  (∃ limits m, Limits.ofOptions options.toLimitOptions = .ok limits
      ∧ Machine.create data options = .ok m)
    ∨ ∃ e, Limits.ofOptions options.toLimitOptions = .error e
      ∧ Machine.create data options = .error e
  := by
  obtain ⟨code, hcode⟩ := Code.exists_of_checkStructure hdata
  rw [Machine.create, hcode]
  cases Limits.ofOptions options.toLimitOptions with
  | ok limits => exact .inl ⟨limits, _, rfl, rfl⟩
  | error e => exact .inr ⟨e, rfl, rfl⟩

/-- The options of a configuration have texts, so that they are refused only because one of them is
no limit. -/
theorem exists_limit_of_toOptions {config : Config} {e : ConstructionError}
    (h : Limits.ofOptions config.toOptions = .error e) :
  ∃ e', e = .limit e'
  := by
  apply Limits.ofOptions_eq_error h
  · rw [Config.toOptions]
    cases config.maxSteps <;> rintro ⟨⟩
  · rintro ⟨⟩
  · rintro ⟨⟩

/-- With the configuration that is in force, a machine of a program without structural faults can
be made exactly if all limits of the configuration are safe.  If one is not, the command that runs
the program fails because of a limit. -/
theorem machine_of_resolveConfig {pretty : Bool} {world : World} {config : Config}
    {origin : Origin}
    (h : ((resolveConfig pretty : StateM World _) world).1 = .ok (config, origin)) :
  (∀ data, checkStructure data = some [] → ∀ runId traced,
    (∃ m, Machine.create data { toLimitOptions := config.toOptions, runId, traced } = .ok m)
      ↔ ∀ x ∈ config.numbers, x.le (.ofNat Number.maxSafe) = true)
  ∧ ∀ program : Program, checkStructure program.toData = some [] →
    (∃ x ∈ config.numbers, x.le (.ofNat Number.maxSafe) = false) → ∀ runId,
    ∃ e : LimitError, machine pretty program (limitOptions none config) runId
      = .error (problem pretty Outcome.failed "E_RUNTIME" e.message)
  := by
  have hwhole : config.IsWhole := by
    obtain ⟨r, hr, hwhole⟩ := resolveConfig_isWhole pretty world
    rw [hr] at h
    apply hwhole config origin h
  have hlimits := hwhole.exists_ofOptions_iff
  constructor
  · intro data hdata runId traced
    rw [← hlimits]
    rcases create_eq_of_checkStructure hdata
      { toLimitOptions := config.toOptions, runId, traced } with ⟨limits, m, hok, hm⟩ | ⟨e, he, hm⟩
    · exact ⟨fun _ => ⟨limits, hok⟩, fun _ => ⟨m, hm⟩⟩
    · rw [hm]
      simp only at he
      rw [he]
      constructor <;> rintro ⟨_, ⟨⟩⟩
  · rintro program hprogram ⟨x, hx, hgreat⟩ runId
    have hoptions : limitOptions none config = config.toOptions := rfl
    rw [hoptions]
    rcases create_eq_of_checkStructure hprogram
      { toLimitOptions := config.toOptions, runId } with ⟨limits, m, hok, -⟩ | ⟨e, he, hm⟩
    · have hsafe := hlimits.mp ⟨limits, hok⟩ x hx
      rw [hgreat] at hsafe
      cases hsafe
    · obtain ⟨e, rfl⟩ := exists_limit_of_toOptions he
      use e
      rw [machine, hm]
      rfl

/-- A world with a program that halts, and with a configuration of the project. -/
def worldWith (config : Text) : World :=
  { files := [([Text.ofString ".tallyrc.json"], .file (Utf8.encode config).toArray),
      ([Text.ofString "p.tasm"], .file (Utf8.encode (Text.ofString "halt\n")).toArray)]
    work := [], home := [Text.ofString "home"], input := #[], clock := 0, runId := "r" }

/-- With the greatest safe limit on the steps, and with negative zero for the heap, there is a
machine. -/
theorem machine_of_resolveConfig_greatest :
  ∃ m, Machine.create (Program.toData [.halt])
    { maxSteps := .number (.int 9007199254740991), memoryLimit := .number (.int 1048576)
      heapLimit := .number .negativeZero } = .ok m
  := by
  have h : ((resolveConfig false : StateM World _)
      (worldWith "\x7b\"maxSteps\": 9007199254740991, \"heapLimit\": -0\x7d")).1
      = .ok (⟨some (.int 9007199254740991), .int 1048576, .negativeZero⟩,
        .project "/.tallyrc.json") := by
    decide +kernel
  apply ((machine_of_resolveConfig h).1 (Program.toData [.halt]) rfl "run" false).mpr
  decide

/-- A limit that is not safe is accepted in the configuration of the project, and then the program
cannot be run because of it. -/
theorem run_fails_past_safe_limits :
  ((resolveConfig false : StateM World _)
      (worldWith "\x7b\"memoryLimit\": 9007199254740992\x7d")).1
    = .ok (⟨none, .int 9007199254740992, .int 1048576⟩, .project "/.tallyrc.json")
  ∧ checkStructure (Program.toData [.halt]) = some []
  ∧ ((run 9 "p.tasm" none none false : StateM World _)
      (worldWith "\x7b\"memoryLimit\": 9007199254740992\x7d")).1
    = some (problem false Outcome.failed "E_RUNTIME"
      (LimitError.memoryLimit "9007199254740992").message)
  := by
  refine ⟨?_, rfl, ?_⟩
  · decide +kernel
  · decide +kernel

end Command

end StackMachine
