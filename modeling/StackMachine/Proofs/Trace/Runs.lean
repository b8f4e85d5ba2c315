import StackMachine.Proofs.Trace.Agreement

/-!
# Traces of several runs

The traces of several runs that have ended, one after another, have one summary.  Its steps are
those of all runs, and its status is that of the last one.  Its fault is that of the last run that
faulted, and a run that halts does not clear it.  So it is the fault of the last run exactly if this
one faulted or none did.
-/

namespace StackMachine

/-- A run has no fault to report exactly if it halted. -/
theorem Outcome.report?_eq_none_iff {outcome : Outcome} :
  outcome.report? = none ↔ outcome = .halted
  := by
  cases outcome <;> simp [report?]

namespace Trace

namespace Summary

/-- A summary tells the steps and the outcomes of runs: how many steps they took together, how the
last one ended, and the last fault. -/
structure TellsRuns (s : Summary) (results : List RunResult) : Prop where
  steps : s.steps = (results.map RunResult.steps).sum
  status : s.status = results.getLast?.map fun r => r.outcome.status
  fault : s.fault = (results.filterMap fun r => r.outcome.report?).getLast?

/-- One run more. -/
theorem TellsRuns.append {s s' : Summary} {results : List RunResult} {r : RunResult}
    (h : s.TellsRuns results) (hr : s.Gains r s') :
  s'.TellsRuns (results ++ [r])
  := by
  constructor
  · rw [hr.steps, h.steps, List.map_append, List.sum_append]
    rfl
  · rw [hr.status, List.getLast?_concat]
    rfl
  · have hlast : ([r].filterMap fun r => r.outcome.report?).getLast? = r.outcome.report? := by
      cases hreport : r.outcome.report? <;> simp [hreport]
    rw [hr.fault, h.fault, List.filterMap_append, List.getLast?_append, hlast]

end Summary

end Trace

/-! ### Runs that have ended -/

/-- A traced run that has ended, with the times at which its events came.  The targets of the jumps
of its program are floating-point numbers. -/
structure TracedRun where
  data : List Datum
  options : MachineOptions
  machine : Machine
  created : Machine.create data options = .ok machine
  traced : machine.traced = true
  length_le : machine.code.length ≤ Number.maxSafe
  targets : ∀ i ∈ machine.code, ∀ t, i.target? = some t → Number.IsFloat t
  cycles : Nat
  result : RunResult
  after : Machine
  ended : machine.run cycles = .ok (some (result, after))
  stamped : List (Int × Event)
  events : stamped.map Prod.snd = after.events

namespace TracedRun

/-- The traced run of code whose constants are words, with all events at one time. -/
def ofCode (code : Code) (options : MachineOptions) (cycles : Nat) (time : Int) {limits : Limits}
    {result : RunResult} {after : Machine} (hcode : ∀ i ∈ code, i.IsWellFormed)
    (hlimits : Limits.ofOptions options.toLimitOptions = .ok limits)
    (htraced : options.traced = true) (hlength : code.length ≤ Number.maxSafe)
    (htargets : ∀ i ∈ code, ∀ t, i.target? = some t → Number.IsFloat t)
    (hrun : (Machine.ofCode code limits options.runId options.traced).run cycles
      = .ok (some (result, after))) :
    TracedRun where
  data := code.toProgram.toData
  options := options
  machine := .ofCode code limits options.runId options.traced
  created := Machine.create_toProgram hcode hlimits
  traced := htraced
  length_le := hlength
  targets := htargets
  cycles := cycles
  result := result
  after := after
  ended := hrun
  stamped := after.events.map (time, ·)
  events := by
    rw [List.map_map]
    apply List.map_id

/-- The text of the trace of a run. -/
def trace (run : TracedRun) : Text := Event.linesAt run.options.runId run.stamped

/-- The entries of the trace of a run. -/
def entries (run : TracedRun) : List Trace.Entry :=
  run.stamped.map fun p => p.2.entry p.1 run.options.runId

variable (run : TracedRun)

theorem isExact (h : run.trace.length ≤ Number.maxSafe) :
  ∀ p ∈ run.stamped, p.2.IsExact
  := by
  have hsteps := Machine.steps_lt_length_linesAt (Machine.not_started_of_create run.created)
    run.traced run.ended run.options.runId run.events
  have hexact := Machine.isExact_of_run run.created run.traced run.length_le run.targets run.ended
    (Nat.le_trans (Nat.le_of_lt hsteps) h)
  rw [← run.events, List.forall_mem_map] at hexact
  exact hexact

/-- A run has an entry for its beginning. -/
theorem entries_ne_nil :
  run.entries ≠ []
  := by
  obtain ⟨t, t', steps, opcodes, hstamped, -⟩ :=
    Machine.stamped_of_run (Machine.not_started_of_create run.created) run.traced run.ended
      run.options.runId run.events
  rw [entries, hstamped]
  apply List.cons_ne_nil

/-- What a run adds to a summary. -/
theorem gains (s : Trace.Summary) :
  s.Gains run.result (run.entries.foldl Trace.Summary.add s)
  := by
  obtain ⟨t, t', steps, opcodes, hstamped, hsteps, hlength, -⟩ :=
    Machine.stamped_of_run (Machine.not_started_of_create run.created) run.traced run.ended
      run.options.runId run.events
  rw [entries, hstamped, List.map_cons, List.map_append]
  exact s.gains_foldl run.options.runId t t' _ (List.forall₂_map_left_iff.mpr hsteps) hlength

end TracedRun

namespace Trace

/-- What several runs add to a summary that has nothing yet. -/
theorem Summary.tellsRuns_foldl {s : Summary} (hs : s.TellsRuns []) (runs : List TracedRun) :
  ((runs.flatMap TracedRun.entries).foldl add s).TellsRuns (runs.map TracedRun.result)
  := by
  -- from the end, for the last run decides on the status and the fault
  induction runs using List.reverseRecOn with
  | nil => exact hs
  | append_singleton runs run ih =>
    rw [List.flatMap_append, List.flatMap_singleton, List.foldl_append, List.map_append]
    exact ih.append (run.gains _)

/-- The entries of the traces of several runs. -/
theorem map_ofLine?_traces {runs : List TracedRun}
    (h : (runs.flatMap TracedRun.trace).length ≤ Number.maxSafe) :
  (contentLines (runs.flatMap TracedRun.trace)).map Entry.ofLine?
    = (runs.flatMap TracedRun.entries).map some
  := by
  have hexact : ∀ p ∈ runs.flatMap (fun run => run.stamped.map (run.options.runId, ·)),
      p.2.2.IsExact := by
    intro p hp
    obtain ⟨run, hrun, hp⟩ := List.mem_flatMap.mp hp
    obtain ⟨q, hq, rfl⟩ := List.mem_map.mp hp
    apply run.isExact _ q hq
    apply Nat.le_trans _ h
    rw [List.length_flatMap]
    exact List.le_sum_of_mem (List.mem_map_of_mem hrun)
  have hread := map_ofLine?_lines hexact
  simp only [List.flatMap_assoc, List.flatMap_map, List.map_flatMap, List.map_map] at hread
  rw [List.map_flatMap]
  simp only [TracedRun.entries, List.map_map]
  exact hread

/-- The traces of several runs have a summary, which tells their steps and outcomes. -/
theorem exists_summary_runs {runs : List TracedRun} (hne : runs ≠ [])
    (h : (runs.flatMap TracedRun.trace).length ≤ Number.maxSafe) :
  ∃ s, summarize (runs.flatMap TracedRun.trace) = some s
    ∧ s.TellsRuns (runs.map TracedRun.result)
  := by
  have hread := map_ofLine?_traces h
  cases hentries : runs.flatMap TracedRun.entries with
  | nil =>
    obtain ⟨run, hrun⟩ := List.exists_mem_of_ne_nil runs hne
    cases run.entries_ne_nil (List.flatMap_eq_nil_iff.mp hentries run hrun)
  | cons e entries =>
    rw [hentries] at hread
    refine ⟨_, summarize_of_entries e entries hread, ?_⟩
    rw [← hentries]
    apply Summary.tellsRuns_foldl
    exact ⟨rfl, rfl, rfl⟩

/-- The summary of the traces of several runs tells the steps of all of them together, and the
status of the last one.  The fault that it tells is that of the last run that faulted.  This is the
fault of the last run, and none if that run halted, exactly if the last run faulted or no run did. -/
theorem summary_of_runs {runs : List TracedRun} {last : TracedRun}
    (h : ((runs ++ [last]).flatMap TracedRun.trace).length ≤ Number.maxSafe) :
  ∃ s, summarize ((runs ++ [last]).flatMap TracedRun.trace) = some s
    ∧ s.steps = (runs.map fun run => run.result.steps).sum + last.result.steps
    ∧ s.status = some last.result.outcome.status
    ∧ s.fault = ((runs ++ [last]).filterMap fun run => run.result.outcome.report?).getLast?
    ∧ (s.fault = last.result.outcome.report?
      ↔ last.result.outcome ≠ .halted ∨ ∀ run ∈ runs, run.result.outcome = .halted)
  := by
  obtain ⟨s, hs, htells⟩ := exists_summary_runs (List.concat_ne_nil last runs) h
  have hfault : s.fault
      = ((runs ++ [last]).filterMap fun run => run.result.outcome.report?).getLast? := by
    rw [htells.fault, List.filterMap_map]
    rfl
  refine ⟨s, hs, ?steps, ?status, hfault, ?last⟩
  case steps =>
    rw [htells.steps, List.map_map, List.map_append, List.sum_append]
    rfl
  case status =>
    rw [htells.status, List.map_append, List.map_singleton, List.getLast?_concat]
    rfl
  case last =>
    have hnone : (runs.filterMap fun run => run.result.outcome.report?).getLast? = none
        ↔ ∀ run ∈ runs, run.result.outcome = .halted := by
      simp only [List.getLast?_eq_none_iff, List.filterMap_eq_nil_iff, Outcome.report?_eq_none_iff]
    rw [hfault, List.filterMap_append, List.getLast?_append, ← hnone]
    cases houtcome : last.result.outcome with
    | halted => simp [houtcome, Outcome.report?]
    | faulted fault index => simp [houtcome, Outcome.report?]

/-- A run that halts after one that faulted does not clear the fault. -/
theorem summary_keeps_fault :
  ∃ (faulted halted : TracedRun) (s : Summary),
    faulted.machine.code = [.pop] ∧ faulted.result = ⟨.faulted .stackUnderflow 0, 1⟩
    ∧ halted.machine.code = [.halt] ∧ halted.result = ⟨.halted, 1⟩
    ∧ summarize ([faulted, halted].flatMap TracedRun.trace) = some s
    ∧ s.status = some (Text.ofString "halted")
    ∧ s.fault = some ⟨"E_STACK_UNDERFLOW", "Operand stack is empty.", some (.int 0)⟩
  := by
  let faulted : TracedRun := .ofCode [.pop] { traced := true } 1 0
    (by simp [Instruction.IsWellFormed]) rfl rfl (by decide) (by simp [Instruction.target?]) rfl
  let halted : TracedRun := .ofCode [.halt] { traced := true } 1 0
    (by simp [Instruction.IsWellFormed]) rfl rfl (by decide) (by simp [Instruction.target?]) rfl
  have hlength : ([faulted, halted].flatMap TracedRun.trace).length ≤ Number.maxSafe := by
    decide +kernel
  obtain ⟨s, hs, htells⟩ := exists_summary_runs (List.cons_ne_nil _ _) hlength
  exact ⟨faulted, halted, s, rfl, rfl, rfl, rfl, hs, htells.status, htells.fault⟩

/-- A jump to `10 ^ 22`, which is no safe integer, has a floating-point number as its target. -/
theorem isFloat_target_far :
  ∀ i ∈ ([.jump (10 ^ 22)] : Code), ∀ t, i.target? = some t → Number.IsFloat t
  := by
  intro i hi t ht
  rw [List.mem_singleton.mp hi] at ht
  cases ht
  constructor
  · unfold Number.Has53Bits
    decide +kernel
  · unfold Number.firstInfinite
    decide +kernel

/-- A run that faults at `10 ^ 22`, where no instruction is, and then a run that halts. -/
theorem summary_of_runs_far :
  ∃ (far halted : TracedRun) (s : Summary),
    far.machine.code = [.jump (10 ^ 22)]
    ∧ far.result = ⟨.faulted (.fetchRange (10 ^ 22) 1) (10 ^ 22), 1⟩
    ∧ halted.machine.code = [.halt] ∧ halted.result = ⟨.halted, 1⟩
    ∧ (([far] ++ [halted]).flatMap TracedRun.trace).length ≤ Number.maxSafe
    ∧ summarize (([far] ++ [halted]).flatMap TracedRun.trace) = some s
    ∧ s.steps = 2 ∧ s.status = some halted.result.outcome.status
    ∧ s.fault = far.result.outcome.report?
  := by
  let far : TracedRun := .ofCode [.jump (10 ^ 22)] { traced := true } 2 0
    (by simp [Instruction.IsWellFormed]) rfl rfl (by decide) isFloat_target_far rfl
  let halted : TracedRun := .ofCode [.halt] { traced := true } 1 0
    (by simp [Instruction.IsWellFormed]) rfl rfl (by decide) (by simp [Instruction.target?]) rfl
  have hlength : (([far] ++ [halted]).flatMap TracedRun.trace).length ≤ Number.maxSafe := by
    decide +kernel
  obtain ⟨s, hs, hsteps, hstatus, hfault, -⟩ := summary_of_runs hlength
  exact ⟨far, halted, s, rfl, rfl, rfl, rfl, hlength, hs, hsteps, hstatus, hfault⟩

end Trace

end StackMachine
