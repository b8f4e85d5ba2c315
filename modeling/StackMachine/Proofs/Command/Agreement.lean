import Mathlib.Tactic.Use
import StackMachine.Proofs.Command.Runs
import StackMachine.Proofs.Files.Store

/-!
# Runs in worlds that agree

Two worlds are alike if they differ at most in the bytes of some files.  If the same program is
loaded in both, and the same configuration, then the runs of a file have the same outcome, and
leave the same at every place that they change: this is so also for the file of the trace, which
is empty in both worlds once it is opened.
-/

namespace StackMachine

namespace World

/-- What stands at a place. -/
def entryAt (world : World) (place : Location) : Option Entry := world.files.entry? place

theorem openNew_of_ok {world : World} {path : Text} {place : Location} {files : Store}
    (h : world.files.openNew world.work path = .ok (place, files)) :
  World.openNew path world = (.ok (World.writeAt place), { world with files })
  := by
  rw [World.openNew, h]

theorem openNew_of_error {world : World} {path : Text} {failure : FileFailure}
    (h : world.files.openNew world.work path = .error failure) :
  World.openNew path world = (.error failure, world)
  := by
  rw [World.openNew, h]

/-- Two worlds that differ at most in the bytes that are in the files. -/
structure Alike (world other : World) : Prop where
  files : world.files.Alike other.files
  work : world.work = other.work
  home : world.home = other.home
  input : world.input = other.input
  clock : world.clock = other.clock
  runId : world.runId = other.runId

/-- Two worlds in the course of two runs that began in others.  At each place they hold the same,
or what the others held, and where the runs write they hold the same. -/
structure InStep (before before' : World) (written : List Location) (world other : World) :
    Prop where
  alike : world.Alike other
  changes : ∀ place, world.entryAt place = other.entryAt place
    ∨ world.entryAt place = before.entryAt place ∧ other.entryAt place = before'.entryAt place
  written : ∀ place ∈ written, world.entryAt place = other.entryAt place

/-- Two worlds that are alike are in step with themselves. -/
theorem Alike.inStep {world other : World} (h : world.Alike other) :
  InStep world other [] world other
  where
  alike := h
  changes _ := .inr ⟨rfl, rfl⟩
  written _ hmem := absurd hmem List.not_mem_nil

/-- Two runs with a trace, from `before` to `after` and from `before'` to `after'`, change the
same: nothing at all; or they leave the same at each place where they change something, and at
the place of the trace. -/
def SameChanges (trace : Option Text) (before before' after after' : World) : Prop :=
  after = before ∧ after' = before'
  ∨ ∀ place, after.entryAt place = after'.entryAt place
    ∨ (after.entryAt place = before.entryAt place ∧ after'.entryAt place = before'.entryAt place)
      ∧ ∀ path ∈ trace, before.files.locateNew before.work path ≠ .ok place

variable {before before' world other : World} {written : List Location}

/-- The clocks go on together. -/
theorem InStep.tick (h : InStep before before' written world other) :
  InStep before before' written { world with clock := world.clock + 1 }
    { other with clock := other.clock + 1 }
  where
  alike := { h.alike with clock := congrArg (· + 1) h.alike.clock }
  changes := h.changes
  written := h.written

/-- The same entry comes to stand at a place in both worlds. -/
theorem InStep.change (h : InStep before before' written world other) {place : Location}
    {e : Option Entry} {files files' : Store}
    (hfiles : ∀ q, files.entry? q = if q = place then e else world.entryAt q)
    (hfiles' : ∀ q, files'.entry? q = if q = place then e else other.entryAt q) :
  InStep before before' (place :: written) { world with files } { other with files := files' }
  := by
  have hentry (q : Location) : entryAt { world with files } q
      = if q = place then e else world.entryAt q := hfiles q
  have hentry' (q : Location) : entryAt { other with files := files' } q
      = if q = place then e else other.entryAt q := hfiles' q
  constructor
  case alike =>
    refine { h.alike with files := ?_ }
    intro q
    rw [hfiles, hfiles']
    split
    · exact .inl rfl
    · apply h.alike.files q
  case changes =>
    intro q
    rw [hentry, hentry']
    split
    · exact .inl rfl
    · apply h.changes q
  case written =>
    intro q hq
    rw [hentry, hentry']
    split
    · rfl
    · next hne => apply h.written q ((List.mem_cons.mp hq).resolve_left hne)

/-- Writing at a place where the same stands fails in both worlds or in none, and leaves the same
there. -/
theorem InStep.writeAt (h : InStep before before' written world other) {place : Location}
    (hplace : place ≠ []) (hmem : place ∈ written) (bytes : Bytes) :
  (World.writeAt place bytes world).1 = (World.writeAt place bytes other).1
    ∧ InStep before before' written (World.writeAt place bytes world).2
      (World.writeAt place bytes other).2
  := by
  have hentry : world.files.entry? place = other.files.entry? place := h.written place hmem
  constructor
  · change (Store.append place bytes world.files).1 = (Store.append place bytes other.files).1
    rw [Store.append_fst hplace, Store.append_fst hplace, hentry]
  · have hchange := h.change (fun q => Store.entry?_append hplace bytes)
      (by
        intro q
        rw [hentry]
        apply Store.entry?_append hplace bytes)
    exact { hchange with written := fun q hq => hchange.written q (List.mem_cons_of_mem _ hq) }

/-- Opening a file leads to the same failure in both worlds, or to the same place, which then
holds the same. -/
theorem InStep.openNew (h : InStep before before' written world other) (path : Text) :
  (∃ failure, World.openNew path world = (.error failure, world)
    ∧ World.openNew path other = (.error failure, other))
  ∨ ∃ place world' other', place ≠ [] ∧ world.files.locateNew world.work path = .ok place
    ∧ World.openNew path world = (.ok (World.writeAt place), world')
    ∧ World.openNew path other = (.ok (World.writeAt place), other')
    ∧ InStep before before' (place :: written) world' other'
  := by
  rcases h.alike.files.openNew world.work path with
    ⟨failure, hopen, hopen'⟩
      | ⟨place, files, files', e, hplace, hlocate, hopen, hopen', hfiles, hfiles'⟩
  · left
    rw [h.alike.work] at hopen'
    exact ⟨failure, openNew_of_error hopen, openNew_of_error hopen'⟩
  · right
    rw [h.alike.work] at hopen'
    exact ⟨place, _, _, hplace, hlocate, openNew_of_ok hopen, openNew_of_ok hopen',
      h.change hfiles hfiles'⟩

end World

namespace Command

/-! ### Computations in two worlds -/

/-- A computation that has the same result in two worlds that are related, and keeps them so. -/
def Keeps (R : World → World → Prop) (α : Type) (x : Attempt α) : Prop :=
  ∀ world other, R world other →
    (x.run world).1 = (x.run other).1 ∧ R (x.run world).2 (x.run other).2

theorem composes_keeps (R : World → World → Prop) :
  Composes (Keeps R)
  := by
  constructor
  case pure =>
    intro α a world other h
    exact ⟨rfl, h⟩
  case bind =>
    intro α β x f hx hf world other h
    obtain ⟨hresult, hafter⟩ := hx world other h
    rcases hrun : x.run world with ⟨r, world'⟩
    rcases hrun' : x.run other with ⟨r', other'⟩
    rw [hrun, hrun'] at hresult hafter
    cases hresult
    cases r with
    | error outcome =>
      rw [run_bind_error hrun, run_bind_error hrun']
      exact ⟨rfl, hafter⟩
    | ok a =>
      rw [run_bind_ok hrun, run_bind_ok hrun']
      apply hf a world' other' hafter

variable {before before' : World} {written : List Location}

theorem respected_keeps :
  Respected (Keeps (World.InStep before before' written))
  := by
  refine ⟨composes_keeps _, ?fail, ?now, ?runId⟩
  case fail =>
    intro α outcome _ world other h
    exact ⟨rfl, h⟩
  case now =>
    intro world other h
    exact ⟨congrArg Except.ok h.alike.clock, h.tick⟩
  case runId =>
    intro world other h
    exact ⟨congrArg Except.ok h.alike.runId, h⟩

theorem keeps_writeAt {place : Location} (hplace : place ≠ []) (hmem : place ∈ written)
    (bytes : Bytes) :
  Keeps (World.InStep before before' written) _ (liftM (World.writeAt place bytes))
  := by
  intro world other h
  obtain ⟨hresult, hafter⟩ := h.writeAt hplace hmem bytes
  exact ⟨congrArg Except.ok hresult, hafter⟩

/-! ### Runs in two worlds -/

variable {world other : World} (h : world.Alike other) (pretty : Bool) (trace : Option Text)

include h

/-- The file for the trace is opened in both worlds or in none; and then what is written to it is
written in both. -/
theorem openTrace_alike :
  (∃ outcome, (openTrace pretty trace : Attempt _).run world = (.error outcome, world)
    ∧ (openTrace pretty trace : Attempt _).run other = (.error outcome, other))
  ∨ ∃ writer written world' other',
    (openTrace pretty trace : Attempt _).run world = (.ok writer, world')
    ∧ (openTrace pretty trace : Attempt _).run other = (.ok writer, other')
    ∧ World.InStep world other written world' other'
    ∧ (∀ path ∈ trace, ∀ place, world.files.locateNew world.work path = .ok place →
      place ∈ written)
    ∧ ∀ write ∈ writer, ∀ bytes, Keeps (World.InStep world other written) _ (liftM (write bytes))
  := by
  rw [openTrace]
  split
  · next hnone =>
    right
    refine ⟨none, [], world, other, rfl, rfl, h.inStep, ?_, ?_⟩
    · rintro path hpath place hplace
      have hnil : path = [] := by
        by_contra hne
        rw [Option.mem_def.mp hpath, Option.filter_some, decide_eq_true hne] at hnone
        cases hnone
      rw [hnil, Store.locateNew_nil] at hplace
      cases hplace
    · rintro write ⟨⟩
  · next path hsome =>
    have hpath : trace = some path := (Option.filter_eq_some_iff.mp hsome).1
    have hlift {w after : World} {r} (hopen : World.openNew path w = (r, after)) :
        (liftM (Environment.openNew (m := StateM World) path) : Attempt _).run w
          = (.ok r, after) := run_lift hopen
    rcases h.inStep.openNew path with
      ⟨failure, hopen, hopen'⟩ | ⟨place, world', other', hplace, hlocate, hopen, hopen', hstep⟩
    · left
      rw [run_bind_ok (hlift hopen), run_bind_ok (hlift hopen')]
      exact ⟨_, rfl, rfl⟩
    · right
      rw [run_bind_ok (hlift hopen), run_bind_ok (hlift hopen')]
      refine ⟨_, _, _, _, rfl, rfl, hstep, ?_, ?_⟩
      · rintro path' hpath' place' hplace'
        cases hpath.symm.trans hpath'
        cases hlocate.symm.trans hplace'
        apply List.mem_cons_self
      · rintro write ⟨⟩ bytes
        apply keeps_writeAt hplace (List.mem_cons_self ..)

/-- What comes after the configuration has the same result in both worlds, and changes the same. -/
theorem tracedExecution_alike (fuel : Nat) (program : Program) (limits : LimitOptions) :
  ((tracedExecution fuel program trace limits pretty).run world).1
      = ((tracedExecution fuel program trace limits pretty).run other).1
    ∧ World.SameChanges trace world other
      ((tracedExecution fuel program trace limits pretty).run world).2
      ((tracedExecution fuel program trace limits pretty).run other).2
  := by
  rw [tracedExecution]
  rcases openTrace_alike h pretty trace with
    ⟨outcome, hopen, hopen'⟩
      | ⟨writer, written, world', other', hopen, hopen', hstep, htrace, hwriter⟩
  · rw [run_bind_error hopen, run_bind_error hopen']
    exact ⟨rfl, .inl ⟨rfl, rfl⟩⟩
  · rw [run_bind_ok hopen, run_bind_ok hopen']
    obtain ⟨hresult, hafter⟩ :=
      respected_keeps.execution hwriter fuel program limits world' other' hstep
    use hresult
    right
    intro place
    by_cases hmem : place ∈ written
    · exact .inl (hafter.written place hmem)
    · exact (hafter.changes place).imp_right fun hsame =>
        ⟨hsame, fun path hpath hplace => hmem (htrace path hpath place hplace)⟩

/-- If the same program is loaded in two worlds that are alike, or the same failure, and the same
configuration is in force, then the runs have the same outcome and change the same. -/
theorem run_alike (fuel : Nat) {file : Text} (maxSteps : Option Number)
    (hloaded : loaded pretty file (sourceOf file world) = loaded pretty file (sourceOf file other))
    (hconfig : configIn pretty world = configIn pretty other) :
  ((run fuel file trace maxSteps pretty : StateM World _) world).1
      = ((run fuel file trace maxSteps pretty : StateM World _) other).1
    ∧ World.SameChanges trace world other
      ((run fuel file trace maxSteps pretty : StateM World _) world).2
      ((run fuel file trace maxSteps pretty : StateM World _) other).2
  := by
  cases hprogram : loaded pretty file (sourceOf file world) with
  | error outcome =>
    rw [run_of_not_loaded hprogram, run_of_not_loaded (hloaded.symm.trans hprogram)]
    exact ⟨rfl, .inl ⟨rfl, rfl⟩⟩
  | ok program =>
    have hprogram' := hloaded.symm.trans hprogram
    cases hfound : configIn pretty world with
    | error outcome =>
      rw [run_of_no_config hprogram hfound,
        run_of_no_config hprogram' (hconfig.symm.trans hfound)]
      exact ⟨rfl, .inl ⟨rfl, rfl⟩⟩
    | ok found =>
      obtain ⟨config, origin⟩ := found
      rw [run_of_config hprogram hfound, run_of_config hprogram' (hconfig.symm.trans hfound)]
      obtain ⟨hresult, hchanges⟩ := tracedExecution_alike h pretty trace fuel program
        (limitOptions maxSteps config)
      exact ⟨congrArg outcomeOf hresult, hchanges⟩

end Command

end StackMachine
