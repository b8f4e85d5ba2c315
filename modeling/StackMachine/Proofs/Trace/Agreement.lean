import StackMachine.Proofs.Assembly.Sources
import StackMachine.Proofs.Machine.Executed
import StackMachine.Proofs.Trace.Counting
import StackMachine.Proofs.Trace.Entries

/-!
# Traces and their summaries

The summary of the trace of a run tells of the run what the machine tells: its name, how many
steps it took and with which opcodes, and how it ended.
-/

namespace StackMachine

/-- The fault that the summary of a run reports. -/
def Outcome.report? : Outcome → Option Trace.FaultReport
  | halted => none
  | faulted fault index => some ⟨fault.code.toText, fault.message, some (.ofNat index)⟩

/-! ### Entries of steps -/

/-- The text of an instruction up to the first blank is the name of its opcode. -/
theorem Instruction.takeWhile_toText (i : Instruction Number) :
  i.toText.takeWhile (· ≠ 0x20) = i.opcode.mnemonic
  := by
  cases i with
  | binary op => cases op <;> decide
  | unary op => cases op <;> decide
  | loadc | jump | jumpz => rfl
  | _ => decide

namespace Trace

/-- An entry tells of a step with an opcode. -/
structure Entry.IsStep (e : Entry) (o : Opcode) : Prop where
  event : e.event = Text.ofString "step"
  opcode : e.opcode = o.mnemonic

theorem isStep_entry (time : Int) (runId : Text) (pc : Nat) (i : Instruction Nat)
    (stack : List Int) (memory : Array Int) :
  ((Event.step pc i stack memory).entry time runId).IsStep i.opcode
  := by
  constructor
  · rfl
  · have htext := (i.map Number.ofNat).takeWhile_toText
    have hopcode : (i.map Number.ofNat).opcode = i.opcode := by
      cases i <;> rfl
    rw [hopcode] at htext
    apply htext

namespace Summary

/-- The summary after entries that tell of steps. -/
theorem foldl_add_steps {entries : List Entry} {opcodes : List Opcode}
    (h : List.Forall₂ Entry.IsStep entries opcodes) (s : Summary) :
  entries.foldl add s
    = { s with
        steps := s.steps + opcodes.length
        instructionsByOpcode :=
          (opcodes.map Opcode.mnemonic).foldl countOpcode s.instructionsByOpcode }
  := by
  induction h generalizing s with
  | nil => rfl
  | @cons e o entries opcodes he _ ih =>
    have hadd : s.add e = { s with
        steps := s.steps + 1
        instructionsByOpcode := countOpcode s.instructionsByOpcode o.mnemonic } := by
      rw [add, he.event, if_neg (by decide), if_pos rfl, addStep, he.opcode]
    rw [List.foldl_cons, hadd, ih, List.length_cons, List.map_cons, List.foldl_cons]
    simp only [Nat.add_assoc, Nat.add_comm 1]

section

variable (s : Summary) (d : Detail)

@[simp]
theorem steps_know :
  (s.know d).steps = s.steps
  := by
  rw [know]
  split <;> rfl

@[simp]
theorem status_know :
  (s.know d).status = s.status
  := by
  rw [know]
  split <;> rfl

@[simp]
theorem fault_know :
  (s.know d).fault = s.fault
  := by
  rw [know]
  split <;> rfl

end

/-- What the events of a run add to the steps and to the outcome of a summary. -/
structure Gains (s : Summary) (r : RunResult) (s' : Summary) : Prop where
  steps : s'.steps = s.steps + r.steps
  status : s'.status = some r.outcome.status
  fault : s'.fault = r.outcome.report?.or s.fault

/-- The end of a run sets the status, and the fault only if it tells one. -/
theorem add_runEnd (s : Summary) (time : Int) (runId : Text) (outcome : Outcome) (steps : Nat) :
  (s.add ((Event.runEnd outcome steps).entry time runId)).steps = s.steps
  ∧ (s.add ((Event.runEnd outcome steps).entry time runId)).status = some outcome.status
  ∧ (s.add ((Event.runEnd outcome steps).entry time runId)).fault
    = outcome.report?.or s.fault
  := by
  cases outcome with
  | halted =>
    have hadd : s.add ((Event.runEnd .halted steps).entry time runId)
        = { know { s.know .endTime with endTime := some (Timestamp.toText time) } .status with
            status := some Outcome.halted.status } := rfl
    rw [hadd]
    refine ⟨?_, rfl, ?_⟩
    · rw [steps_know, steps_know]
    · rw [fault_know, fault_know]
      rfl
  | faulted fault index =>
    have hadd : s.add ((Event.runEnd (.faulted fault index) steps).entry time runId)
        = { know
              { know { s.know .endTime with endTime := some (Timestamp.toText time) } .status with
                status := some (Outcome.faulted fault index).status } .fault with
            fault := (Outcome.faulted fault index).report? } := rfl
    rw [hadd]
    refine ⟨?_, ?_, rfl⟩
    · rw [steps_know, steps_know, steps_know]
    · rw [status_know]

/-- What the entries of a run add to a summary. -/
theorem gains_foldl (s : Summary) (runId : Text) (t t' : Int) (n : Nat) {entries : List Entry}
    {opcodes : List Opcode} (h : List.Forall₂ Entry.IsStep entries opcodes) {r : RunResult}
    (hr : r.steps = opcodes.length) :
  s.Gains r (((Event.runStart n).entry t runId ::
    (entries ++ [(Event.runEnd r.outcome r.steps).entry t' runId])).foldl add s)
  := by
  have hstart : s.add ((Event.runStart n).entry t runId)
      = { s.know .startTime with startTime := some (Timestamp.toText t) } := rfl
  rw [List.foldl_cons, List.foldl_append, List.foldl_cons, List.foldl_nil, hstart,
    foldl_add_steps h]
  obtain ⟨hsteps, hstatus, hfault⟩ := add_runEnd _ t' runId r.outcome r.steps
  constructor
  · rw [hsteps, steps_know, hr]
  · rw [hstatus]
  · rw [hfault, fault_know]

/-- What the summary of a run that has ended tells: the name of the run, that no line was
skipped, the number of events and of steps, how the run ended, and how often each opcode was
executed. -/
structure Tells (s : Summary) (runId : Text) (r : RunResult) (executions : Opcode → Nat) :
    Prop where
  runId : s.runId = runId
  skippedLines : s.skippedLines = 0
  totalEvents : s.totalEvents = r.steps + 2
  steps : s.steps = r.steps
  status : s.status = some r.outcome.status
  fault : s.fault = r.outcome.report?
  executions : ∀ o, s.instructionsByOpcode.get? o.mnemonic
    = if executions o = 0 then none else some (.number (executions o))

/-- The entries of a run: of its beginning, of a step for each opcode, and of its end. -/
theorem tells_foldl (runId : Text) (t t' : Int) (n : Nat) {entries : List Entry}
    {opcodes : List Opcode} (h : List.Forall₂ Entry.IsStep entries opcodes) {r : RunResult}
    (hr : r.steps = opcodes.length) :
  (((Event.runStart n).entry t runId ::
        (entries ++ [(Event.runEnd r.outcome r.steps).entry t' runId])).foldl add
      { runId, totalEvents := entries.length + 2, skippedLines := 0 }).Tells runId r
    fun o => opcodes.count o
  := by
  have hgains := gains_foldl { runId, totalEvents := entries.length + 2, skippedLines := 0 }
    runId t t' n h hr
  have hstart : add { runId, totalEvents := entries.length + 2, skippedLines := 0 }
      ((Event.runStart n).entry t runId)
      = { runId, totalEvents := entries.length + 2, skippedLines := 0
          startTime := some (Timestamp.toText t), details := [.startTime] } := rfl
  have hnone : Tallies [] [] := fun _ => rfl
  have hcounts := hnone.foldl opcodes
  rw [List.foldl_cons, List.foldl_append, hstart, foldl_add_steps h] at hgains ⊢
  obtain ⟨outcome, steps⟩ := r
  cases hr
  -- the last entry leaves the name, the numbers of lines and the counts as they are
  constructor
  · cases outcome <;> rfl
  · cases outcome <;> rfl
  · rw [← h.length_eq]
    cases outcome <;> rfl
  · exact hgains.steps.trans (Nat.zero_add _)
  · exact hgains.status
  · exact hgains.fault.trans Option.or_none
  · cases outcome <;> apply hcounts

end Summary

/-- The summary of the lines of a run whose events are exact. -/
theorem summarize_run {runId : Text} {t t' : Int} {n : Nat} {steps : List (Int × Event)}
    {opcodes : List Opcode} {r : RunResult}
    (hexact : ∀ p ∈ (t, .runStart n) :: (steps ++ [(t', .runEnd r.outcome r.steps)]), p.2.IsExact)
    (hsteps : List.Forall₂ (fun p o => (p.2.entry p.1 runId).IsStep o) steps opcodes)
    (hr : r.steps = opcodes.length) :
  ∃ summary, summarize (Event.linesAt runId
        ((t, .runStart n) :: (steps ++ [(t', .runEnd r.outcome r.steps)]))) = some summary
    ∧ summary.Tells runId r fun o => opcodes.count o
  := by
  have hread := map_ofLine?_linesAt runId hexact
  have hentries : List.Forall₂ Entry.IsStep (steps.map fun p => p.2.entry p.1 runId) opcodes :=
    List.forall₂_map_left_iff.mpr hsteps
  have hsummary := summarize_of_entries ((Event.runStart n).entry t runId)
    ((steps.map fun p => p.2.entry p.1 runId) ++ [(Event.runEnd r.outcome r.steps).entry t' runId])
    (hread.trans (by simp))
  refine ⟨_, hsummary, ?_⟩
  rw [List.length_append]
  apply Summary.tells_foldl runId t t' n hentries hr

end Trace

/-! ### Traced runs -/

/-- The lines of events have at least as many units as there are events. -/
theorem Event.length_le_linesAt (runId : Text) (stamped : List (Int × Event)) :
  stamped.length ≤ (linesAt runId stamped).length
  := by
  induction stamped with
  | nil => apply Nat.zero_le
  | cons p stamped ih =>
    have hline : 1 ≤ (p.2.line p.1 runId).length := by
      rw [line, List.length_append]
      apply Nat.le_add_left
    rw [linesAt, List.flatMap_cons, List.length_append, List.length_cons]
    change _ ≤ _ + (linesAt runId stamped).length
    omega

namespace Machine

variable {data : List Datum} {source : Text} {code : Code} {options : MachineOptions}
  {limits : Limits} {m m' : Machine} {n : Nat} {r : RunResult}

/-- The events of a run are exact if the length of the code and the number of steps are, and the
targets of its jumps are floating-point numbers. -/
theorem isExact_of_run (hm : Machine.create data options = .ok m) (htraced : m.traced = true)
    (hlength : m.code.length ≤ Number.maxSafe)
    (htargets : ∀ i ∈ m.code, ∀ t, i.target? = some t → Number.IsFloat t)
    (hrun : m.run n = .ok (some (r, m'))) (hsteps : r.steps ≤ Number.maxSafe) :
  ∀ e ∈ m'.events, e.IsExact
  := by
  obtain ⟨passed, hevents, -, -, hpc⟩ := events_eq_map (not_started_of_create hm) htraced hrun
  intro e he
  rw [hevents] at he
  rcases List.mem_cons.mp he with rfl | he
  · apply Event.IsExact.runStart hlength
  rcases List.mem_append.mp he with he | he
  · obtain ⟨p, hp, rfl⟩ := List.mem_map.mp he
    apply Event.IsExact.step
    have := hpc p hp
    omega
  · rw [List.mem_singleton.mp he]
    cases houtcome : r.outcome with
    | halted => apply Event.IsExact.halted hsteps
    | faulted fault index =>
      apply Event.IsExact.faulted fault _ hsteps
      rcases index_of_run hm hrun houtcome with hindex | ⟨i, hi, htarget⟩
      · apply Number.isFloat_of_le (Nat.le_trans (Nat.le_trans hindex hlength) (by decide))
      · apply htargets i hi index htarget

/-- The events of a run that has ended, at the times at which they came: its beginning, a step for
each opcode that was executed, and its end. -/
theorem stamped_of_run (hm : m.started = false) (htraced : m.traced = true)
    (hrun : m.run n = .ok (some (r, m'))) (runId : Text) {stamped : List (Int × Event)}
    (hstamped : stamped.map Prod.snd = m'.events) :
  ∃ t t' steps opcodes,
    stamped = (t, .runStart m.code.length) :: (steps ++ [(t', .runEnd r.outcome r.steps)])
    ∧ List.Forall₂ (fun p o => (p.2.entry p.1 runId).IsStep o) steps opcodes
    ∧ r.steps = opcodes.length ∧ (fun o => opcodes.count o) = m.executions n
  := by
  obtain ⟨passed, hevents, hsteps, hexecutions, -⟩ := events_eq_map hm htraced hrun
  rw [hevents] at hstamped
  obtain ⟨⟨t, _⟩, behind, rfl, rfl, hbehind⟩ := List.map_eq_cons_iff.mp hstamped
  obtain ⟨steps, last, rfl, hpassed, hlast⟩ := List.map_eq_append_iff.mp hbehind
  obtain ⟨⟨t', _⟩, rfl, rfl⟩ := List.map_eq_singleton_iff.mp hlast
  have hpairs : List.Forall₂ (fun (q : Int × Event) (p : State × Instruction Nat) =>
      q.2 = .step p.1.pc p.2 p.1.stack p.1.memory) steps passed := by
    rw [← List.forall₂_eq_eq_eq, List.forall₂_map_left_iff, List.forall₂_map_right_iff] at hpassed
    apply hpassed
  refine ⟨t, t', steps, passed.map fun p => p.2.opcode, rfl, ?_,
    hsteps.trans (List.length_map _).symm, funext hexecutions⟩
  rw [List.forall₂_map_right_iff]
  apply hpairs.imp
  intro q p hq
  rw [hq]
  apply Trace.isStep_entry

/-- A trace has more units than the run has steps. -/
theorem steps_lt_length_linesAt (hm : m.started = false) (htraced : m.traced = true)
    (hrun : m.run n = .ok (some (r, m'))) (runId : Text) {stamped : List (Int × Event)}
    (hstamped : stamped.map Prod.snd = m'.events) :
  r.steps < (Event.linesAt runId stamped).length
  := by
  obtain ⟨t, t', steps, opcodes, hevents, hsteps, hlength, -⟩ :=
    stamped_of_run hm htraced hrun runId hstamped
  have hlines := Event.length_le_linesAt runId stamped
  rw [hevents, List.length_cons, List.length_append, hsteps.length_eq, ← hlength, ← hevents]
    at hlines
  omega

/-- The summary of the lines of the events of a run, if these are exact. -/
theorem exists_summary (hm : m.started = false) (htraced : m.traced = true)
    (hrun : m.run n = .ok (some (r, m'))) (hexact : ∀ e ∈ m'.events, e.IsExact) (runId : Text)
    {stamped : List (Int × Event)} (hstamped : stamped.map Prod.snd = m'.events) :
  ∃ summary, Trace.summarize (Event.linesAt runId stamped) = some summary
    ∧ summary.Tells runId r (m.executions n)
  := by
  obtain ⟨t, t', steps, opcodes, rfl, hsteps, hlength, hexecutions⟩ :=
    stamped_of_run hm htraced hrun runId hstamped
  rw [← hstamped, List.forall_mem_map] at hexact
  rw [← hexecutions]
  apply Trace.summarize_run hexact hsteps hlength

/-- The trace of a run and its summary agree.  A traced machine is made of every program that
assembles.  When its run has ended, the lines of its events, at whatever times they come, have a
summary which tells the same as the machine: no line was skipped, the events are one for each
step and two more, the run has its name and its end, and each opcode is counted as often as it
was executed.  A trace is a text, so it has no more units than a text can have. -/
theorem trace_summary (hsource : source.length ≤ Number.maxSafe)
    (hcode : Assembly.assemble source = .ok code)
    (hlimits : Limits.ofOptions options.toLimitOptions = .ok limits) :
  ∃ m, Machine.create code.toProgram.toData { options with traced := true } = .ok m
    ∧ ∀ n r m', m.run n = .ok (some (r, m')) →
      ∀ stamped, stamped.map Prod.snd = m'.events →
        (Event.linesAt options.runId stamped).length ≤ Number.maxSafe →
        ∃ summary, Trace.summarize (Event.linesAt options.runId stamped) = some summary
          ∧ summary.Tells options.runId r (m.executions n)
  := by
  have hlength : code.length ≤ Number.maxSafe := by
    have := Assembly.length_of_assemble hcode
    omega
  have hwell := Assembly.isWellFormed_of_assemble hcode hlength
  have hm := create_traced (create_toProgram (fun i hi => (hwell i hi).1) hlimits)
  refine ⟨_, hm, ?_⟩
  intro n r m' hrun stamped hstamped htext
  have hsteps : r.steps ≤ Number.maxSafe := by
    have := steps_lt_length_linesAt rfl rfl hrun options.runId hstamped
    omega
  have htargets : ∀ i ∈ code, ∀ t, i.target? = some t → Number.IsFloat t := by
    intro i hi t ht
    exact Number.isFloat_of_le (Nat.le_trans ((hwell i hi).2 t ht) (by decide))
  have hexact := isExact_of_run hm rfl hlength htargets hrun hsteps
  apply exists_summary rfl rfl hrun hexact options.runId hstamped

/-- A run whose name has a quote, a line feed and a lone surrogate, and which ends with a fault
while a word that is no exact number is on the stack. -/
theorem trace_summary_odd_name :
  ∃ m m' summary,
    Machine.create (Code.toProgram [.loadc 9007199254740993, .load]).toData
      { runId := [0x22, 0x0A, 0xD800], traced := true } = .ok m
    ∧ m.run 2 = .ok (some
      (⟨.faulted (.address 9007199254740993 Limits.defaultSize) 1, 2⟩, m'))
    ∧ Trace.summarize (Event.lines 0 [0x22, 0x0A, 0xD800] m'.events) = some summary
    ∧ summary.Tells [0x22, 0x0A, 0xD800]
      ⟨.faulted (.address 9007199254740993 Limits.defaultSize) 1, 2⟩ (m.executions 2)
    ∧ m.executions 2 .load = 1
  := by
  have hcode : Assembly.assemble "loadc 9007199254740993\nload"
      = .ok [.loadc 9007199254740993, .load] := by
    decide +kernel
  have hlimits : Limits.ofOptions
      ({ runId := [0x22, 0x0A, 0xD800] } : MachineOptions).toLimitOptions = .ok _ := rfl
  obtain ⟨m, hm, hsummaries⟩ := trace_summary (by decide) hcode hlimits
  have hwell : ∀ i ∈ ([.loadc 9007199254740993, .load] : Code), i.IsWellFormed := by
    simp [Instruction.IsWellFormed, Word.IsWord, Word.least, Word.greatest]
  have hm' := create_traced (create_toProgram hwell hlimits)
  rw [hm] at hm'
  cases hm'
  obtain ⟨summary, hsummary, htells⟩ := hsummaries 2 _ _ rfl
    [(0, .runStart 2), (1, .step 0 (.loadc 9007199254740993) [] #[]),
      (2, .step 1 .load [9007199254740993] #[]),
      (3, .runEnd (.faulted (.address 9007199254740993 Limits.defaultSize) 1) 2)]
    rfl (by decide +kernel)
  refine ⟨_, _, summary, hm, rfl, ?_, htells, by decide +kernel⟩
  rw [Event.lines_eq_linesAt]
  apply hsummary

end Machine

end StackMachine
