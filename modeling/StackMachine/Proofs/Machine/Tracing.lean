import StackMachine.Proofs.Machine.LargerLimits
import StackMachine.Trace.Event

/-!
# Traced runs

A run that is traced is the same as one that is not.  Its events are its beginning, a step
for each instruction that is executed, and its end; each step shows the state that the run
is left in by a limit of as many steps as come before it.
-/

namespace StackMachine

/-! ### What events tell -/

namespace Event

/-- An event tells of a step in a state: its place in the program, its stack from the bottom
to the top, and its memory. -/
structure Shows (e : Event) (s : State) : Prop where
  name : e.name = Text.ofString "step"
  pc : e.data.field? "pc" = some (.ofNat s.pc)
  stack : e.data.field? "stack" = some (Word.listToJson s.stack.reverse)
  memory : e.data.field? "memory" = some (Word.listToJson s.memory.toList)

/-- An event tells of the end of a run: how it ended and after how many steps and, if it ended
with a fault, at which instruction and with which code and message. -/
structure Reports (e : Event) (r : RunResult) : Prop where
  name : e.name = Text.ofString "run_end"
  status : e.data.field? "status" = some (.string r.outcome.status)
  steps : e.data.field? "steps" = some (.ofNat r.steps)
  fault : ∀ fault index, r.outcome = .faulted fault index →
    e.data.field? "at" = some (.ofNat index)
      ∧ e.data.field? "error" = some (.string fault.code.toText)
      ∧ e.data.field? "message" = some (.string fault.message)

theorem shows_step (s : State) (i : Instruction Nat) :
  (step s.pc i s.stack s.memory).Shows s
  := by
  constructor <;> rfl

theorem reports_runEnd (outcome : Outcome) (steps : Nat) :
  (runEnd outcome steps).Reports ⟨outcome, steps⟩
  := by
  constructor
  · rfl
  · cases outcome <;> rfl
  · cases outcome <;> rfl
  · rintro fault index rfl
    exact ⟨rfl, rfl, rfl⟩

end Event

/-! ### The events of a run -/

namespace State

section

variable (limits : Limits) (code : Array (Instruction Nat))

/-- The events that the run from a state tells in a number of cycles. -/
def events : Nat → State → List Event
  | 0, _ => []
  | n + 1, s =>
    match s.fetch limits code with
    | .error fault => [.runEnd (.faulted fault s.pc) s.steps]
    | .ok i =>
      .step s.pc i s.stack s.memory ::
        match (s.cycle limits code).progress s.pc with
        | .inl t => events n t
        | .inr f => [.runEnd f.outcome f.state.steps]

end

variable {limits : Limits} {code : Array (Instruction Nat)} {s : State}

/-- The events that are kept of a run are those of its cycles, the last one first. -/
theorem runFrom_record_snd (n : Nat) (s : State) (kept : List Event) :
  ((runFrom Machine.record limits code n s).run kept).2
    = (s.events limits code n).reverse ++ kept
  := by
  induction n generalizing s kept with
  | zero => rfl
  | succ n ih =>
    rw [runFrom, events, cycle]
    cases s.fetch limits code with
    | error fault => rfl
    | ok i =>
      simp only
      cases s.advance.execute limits i with
      | running t =>
        rw [Step.progress, List.reverse_cons, List.append_assoc]
        apply ih
      | halted t => rfl
      | faulted fault t => rfl

/-- An instruction that is fetched counts as a step, however it ends. -/
theorem steps_of_fetch {i : Instruction Nat} (hi : s.fetch limits code = .ok i) :
  (s.cycle limits code).state.steps = s.steps + 1
  := by
  have hturn := turn_cycle limits code s
  generalize s.cycle limits code = r at hturn
  cases hturn with
  | refused h =>
    rw [hi] at h
    cases h
  | running _ ht => apply ht.steps
  | halted => rfl
  | faulted => rfl

/-- The events of a run that ends are a step for each that is counted, which shows the state
that the run has come to, and then the end. -/
theorem events_of_proceed {n : Nat} {f : Finished} (h : s.proceed limits code n = .inr f) :
  ∃ steps, s.events limits code n = steps ++ [.runEnd f.outcome f.state.steps]
    ∧ f.state.steps = s.steps + steps.length
    ∧ ∀ k e, steps[k]? = some e → ∃ t, s.proceed limits code k = .inl t ∧ e.Shows t
  := by
  induction n generalizing s with
  | zero => cases h
  | succ n ih =>
    rw [proceed] at h
    cases hi : s.fetch limits code with
    | error fault =>
      rw [cycle_of_fetch_error hi] at h
      cases h
      use []
      refine ⟨?_, rfl, ?_⟩
      · rw [events, hi]
        rfl
      · rintro k e ⟨⟩
    | ok i =>
      have hsteps := steps_of_fetch hi
      rw [← Step.state_progress s.pc] at hsteps
      cases hp : (s.cycle limits code).progress s.pc with
      | inr g =>
        rw [hp] at h hsteps
        cases h
        use [.step s.pc i s.stack s.memory]
        refine ⟨?_, hsteps, ?_⟩
        · rw [events, hi, hp]
          rfl
        · rintro (_ | k) e ⟨⟩
          exact ⟨s, rfl, Event.shows_step s i⟩
      | inl u =>
        rw [hp] at h hsteps
        obtain ⟨steps, hevents, hlength, hshows⟩ := ih h
        use .step s.pc i s.stack s.memory :: steps
        refine ⟨?_, ?_, ?_⟩
        · rw [events, hi, hp]
          simp only
          rw [hevents, List.cons_append]
        · change u.steps = s.steps + 1 at hsteps
          rw [hlength, hsteps, List.length_cons]
          omega
        · rintro (_ | k) e he
          · cases he
            exact ⟨s, rfl, Event.shows_step s i⟩
          · obtain ⟨t, ht, hshow⟩ := hshows k e he
            refine ⟨t, ?_, hshow⟩
            rw [proceed, hp]
            apply ht

end State

/-! ### Machines -/

namespace Machine

variable {data : List Datum} {options : MachineOptions} {m m₀ : Machine}

/-- A traced machine keeps the beginning of its run and the events of its cycles. -/
theorem follow_snd (hm : m.traced = true) (n : Nat) :
  (m.follow n).2
    = .runStart m.code.length :: State.initial.events m.limits m.code.toArray n
  := by
  rw [follow, if_pos hm]
  change List.reverse ((State.runFrom record m.limits m.code.toArray n .initial).run
    [.runStart m.code.length]).2 = _
  rw [State.runFrom_record_snd, List.reverse_append, List.reverse_reverse]
  rfl

/-- The events that a traced machine keeps of its run. -/
theorem events_of_run (hm : m.started = false) (htraced : m.traced = true) {n : Nat}
    {r : RunResult} {m' : Machine} (h : m.run n = .ok (some (r, m'))) :
  ∃ steps last, m'.events = .runStart m.code.length :: (steps ++ [last])
    ∧ steps.length = r.steps ∧ last.Reports r
    ∧ ∀ k e, steps[k]? = some e → ∃ t, m.progress k = .inl t ∧ e.Shows t
  := by
  obtain ⟨f, hp, rfl, rfl⟩ := run_eq_some hm h
  obtain ⟨steps, hevents, hlength, hshows⟩ := State.events_of_proceed hp
  use steps, .runEnd f.outcome f.state.steps
  refine ⟨?_, ?_, Event.reports_runEnd _ _, hshows⟩
  · rw [follow_snd htraced, hevents]
  · rw [← Nat.zero_add steps.length]
    apply hlength.symm

/-- A state to which the run of a machine comes is the one that it is left in by a limit of as
many steps. -/
theorem ends_limitSteps_of_progress (hm : m.started = false) {k : Nat} {t : State}
    (ht : m.progress k = .inl t) :
  (m.limitSteps (some k)).Ends ⟨.faulted (.stepLimit k) t.pc, t⟩ ∧ t.steps = k
  := by
  have ht' := State.proceed_inl_of_within m.limits.within_unlimited ht
  obtain ⟨hends, hsteps⟩ := State.endsIn_stepLimit rfl rfl ht'
  have hm' : (m.limitSteps (some k)).started = false := hm
  exact ⟨ends_of_endsIn hm' hends, hsteps⟩

/-- A machine can be made in the same way and be traced. -/
theorem create_traced (hm : Machine.create data options = .ok m) :
  Machine.create data { options with traced := true } = .ok { m with traced := true }
  := by
  obtain ⟨code, limits, hcode, hlimits, rfl⟩ := create_eq_ok_iff.mp hm
  apply create_eq_ok_iff.mpr
  exact ⟨code, limits, hcode, hlimits, rfl⟩

/-- Tracing shows a run as it is and does not change it.  A machine that is traced runs as it
does otherwise.  Its events are the beginning of the run, as many steps as the run counts, and
its end.  The first step shows the initial state, and every other one the state that the run
of the same program is left in by a limit of as many steps as come before. -/
theorem tracing_faithful (hm₀ : Machine.create data options = .ok m₀)
    (hm : Machine.create data { options with traced := true } = .ok m) :
  (∀ n, (m.run n).map (Option.map fun p => (p.1, p.2.state))
      = (m₀.run n).map (Option.map fun p => (p.1, p.2.state)))
    ∧ ∀ n r m', m.run n = .ok (some (r, m')) →
      ∃ steps last, m'.events = .runStart data.length :: (steps ++ [last])
        ∧ steps.length = r.steps ∧ (∀ e ∈ steps, e.name = Text.ofString "step")
        ∧ last.Reports r
        ∧ (∀ e, steps[0]? = some e → e.Shows .initial)
        ∧ ∀ k e option, steps[k]? = some e → Limits.steps? option = some (some k) →
          ∃ mₖ t, Machine.create data { options with maxSteps := option } = .ok mₖ
            ∧ mₖ.Ends ⟨.faulted (.stepLimit k) t.pc, t⟩ ∧ t.steps = k ∧ e.Shows t
  := by
  have hstarted := not_started_of_create hm₀
  rw [create_traced hm₀] at hm
  obtain rfl := Except.ok.inj hm
  constructor
  · intro n
    rw [run_eq hstarted, run_eq (m := { m₀ with traced := true }) hstarted]
    change Except.ok (Option.map _ (Option.map _ (m₀.progress n).getRight?)) = .ok _
    rw [Option.map_map, Option.map_map]
    rfl
  · intro n r m' hrun
    obtain ⟨steps, last, hevents, hlength, hreports, hshows⟩ :=
      events_of_run (m := { m₀ with traced := true }) hstarted rfl hrun
    use steps, last
    refine ⟨?_, hlength, ?_, hreports, ?_, ?_⟩
    · obtain ⟨code, limits, hcode, -, rfl⟩ := create_eq_ok_iff.mp hm₀
      rw [hevents, Code.length_of_ofData hcode]
      rfl
    · intro e he
      obtain ⟨k, hk⟩ := List.mem_iff_getElem?.mp he
      obtain ⟨t, -, hshow⟩ := hshows k e hk
      apply hshow.name
    · intro e he
      obtain ⟨t, ⟨⟩, hshow⟩ := hshows 0 e he
      apply hshow
    · intro k e option he hoption
      obtain ⟨t, ht, hshow⟩ := hshows k e he
      obtain ⟨hends, hsteps⟩ := ends_limitSteps_of_progress (m := m₀) hstarted ht
      exact ⟨_, t, create_limitSteps hm₀ hoption, hends, hsteps, hshow⟩

/-- A program that stores a word and then jumps past its end is traced in four steps, the last
of which shows the state that a limit of three steps leaves. -/
theorem tracing_faithful_past_end :
  ∃ m m' r steps last, Machine.create (Code.toProgram [.loadc 2, .loadc 0, .store, .jump 9]).toData
      { traced := true } = .ok m
    ∧ m.run 5 = .ok (some (r, m')) ∧ r = ⟨.faulted (.fetchRange 9 4) 9, 4⟩
    ∧ m'.events = .runStart 4 :: (steps ++ [last]) ∧ steps.length = 4 ∧ last.Reports r
    ∧ ∃ e m₃ t, steps[3]? = some e
      ∧ Machine.create (Code.toProgram [.loadc 2, .loadc 0, .store, .jump 9]).toData
        { maxSteps := .number (.int 3) } = .ok m₃
      ∧ m₃.Ends ⟨.faulted (.stepLimit 3) t.pc, t⟩ ∧ t.steps = 3 ∧ e.Shows t
  := by
  have hcode : ∀ i ∈ ([.loadc 2, .loadc 0, .store, .jump 9] : Code), i.IsWellFormed := by
    simp [Instruction.IsWellFormed, Word.IsWord, Word.least, Word.greatest]
  have hm₀ : Machine.create (Code.toProgram [.loadc 2, .loadc 0, .store, .jump 9]).toData {}
      = .ok _ := create_toProgram hcode rfl
  have hm : Machine.create (Code.toProgram [.loadc 2, .loadc 0, .store, .jump 9]).toData
      { traced := true } = .ok _ := create_toProgram hcode rfl
  obtain ⟨steps, last, hevents, hlength, -, hreports, -, hshows⟩ :=
    (tracing_faithful hm₀ hm).2 5 ⟨.faulted (.fetchRange 9 4) 9, 4⟩ _ rfl
  obtain ⟨e, he⟩ : ∃ e, steps[3]? = some e := by
    use steps[3]
    apply List.getElem?_eq_getElem
  obtain ⟨m₃, t, hm₃, hends, hsteps, hshow⟩ := hshows 3 e (.number (.int 3)) he rfl
  exact ⟨_, _, _, steps, last, hm, rfl, rfl, hevents, hlength, hreports, e, m₃, t, he, hm₃, hends,
    hsteps, hshow⟩

end Machine

end StackMachine
