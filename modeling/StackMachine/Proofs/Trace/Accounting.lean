import Mathlib.Algebra.BigOperators.Group.List.Lemmas
import Mathlib.Algebra.GroupWithZero.Nat
import Mathlib.Data.List.Dedup
import StackMachine.Proofs.Fields
import StackMachine.Trace.Summary

/-!
# What a summary accounts for

The summary of a text accounts for each line that is not blank, as an event or as skipped, and for
each event that tells of a step.  The count of an opcode is how often it came, counted up from what
its name begins with.  That is 0 unless the name is built in, so the counts add up to the number of
steps exactly if no step has a built-in name for its opcode.
-/

namespace StackMachine

namespace Trace

/-! ### Events and opcodes -/

/-- The events of a trace. -/
def events (content : Text) : List Entry := (contentLines content).filterMap Entry.ofLine?

/-- Whether an event tells of a step. -/
def Entry.isStep (e : Entry) : Bool := e.event = Text.ofString "step"

/-- The events of a trace that tell of steps. -/
def steps (content : Text) : List Entry := (events content).filter Entry.isStep

/-- The name of the opcode of a step: the text of the instruction begins with it up to the first
blank.  Where no text tells the instruction, the name is `unknown`. -/
inductive Entry.IsNamed (e : Entry) (name : Text) : Prop where
  | text {rest : Text} (instruction : e.datum? "instr" = some (.string (name ++ rest)))
      (noBlank : 0x20 ∉ name) (stops : rest = [] ∨ rest.head? = some 0x20)
  | unknown (noText : ∀ t, e.datum? "instr" ≠ some (.string t))
      (name_eq : name = Text.ofString "unknown")

/-- A text up to the first blank is what a blank or the end follows. -/
theorem takeWhile_blank_eq_iff {t name : Text} :
  t.takeWhile (· ≠ 0x20) = name
    ↔ ∃ rest, t = name ++ rest ∧ 0x20 ∉ name ∧ (rest = [] ∨ rest.head? = some 0x20)
  := by
  constructor
  · rintro rfl
    refine ⟨t.dropWhile (· ≠ 0x20), List.takeWhile_append_dropWhile.symm, ?_, ?_⟩
    · intro hblank
      have := List.mem_takeWhile_imp hblank
      contradiction
    · cases hrest : t.dropWhile (· ≠ 0x20) with
      | nil => exact .inl rfl
      | cons u rest =>
        have hu := List.head?_dropWhile_not (· ≠ 0x20) t
        rw [hrest] at hu
        right
        rw [List.head?_cons, of_not_not (of_decide_eq_false hu)]
  · rintro ⟨rest, rfl, hname, hrest⟩
    have hall : ∀ u ∈ name, decide (u ≠ 0x20) = true := by
      intro u hu
      apply decide_eq_true
      rintro rfl
      exact hname hu
    have hstop : rest.takeWhile (· ≠ 0x20) = [] := by
      cases rest with
      | nil => rfl
      | cons u rest =>
        rcases hrest with ⟨⟨⟩⟩ | ⟨⟨⟩⟩
        rfl
    rw [List.takeWhile_append_of_pos hall, hstop, List.append_nil]

namespace Entry

variable {e : Entry}

theorem opcode_of_text {t : Text} (h : e.datum? "instr" = some (.string t)) :
  e.opcode = t.takeWhile (· ≠ 0x20)
  := by
  rw [opcode, h]

theorem opcode_of_noText (h : ∀ t, e.datum? "instr" ≠ some (.string t)) :
  e.opcode = Text.ofString "unknown"
  := by
  rw [opcode]
  split
  · next t ht => cases h t ht
  · rfl

/-- The opcode that is counted for a step is named by it. -/
theorem isNamed_iff {name : Text} :
  e.IsNamed name ↔ e.opcode = name
  := by
  constructor
  · rintro (⟨h, hname, hrest⟩ | ⟨h, rfl⟩)
    · rw [opcode_of_text h]
      exact takeWhile_blank_eq_iff.mpr ⟨_, rfl, hname, hrest⟩
    · apply opcode_of_noText h
  · intro hname
    by_cases htext : ∃ t, e.datum? "instr" = some (.string t)
    · obtain ⟨t, ht⟩ := htext
      rw [opcode_of_text ht, takeWhile_blank_eq_iff] at hname
      obtain ⟨rest, rfl, hblank, hrest⟩ := hname
      exact .text ht hblank hrest
    · have hnone := not_exists.mp htext
      rw [opcode_of_noText hnone] at hname
      exact .unknown hnone hname.symm

instance (name : Text) : Decidable (e.IsNamed name) :=
  decidable_of_iff (e.opcode = name) isNamed_iff.symm

end Entry

/-! ### Tables of counts -/

/-- A name with which a table of counts begins, so that it is not counted from 0. -/
def IsBuiltin (name : Text) : Prop :=
  name = Text.ofString "__proto__" ∨ name ∈ Fields.keys builtin

instance (name : Text) : Decidable (IsBuiltin name) := inferInstanceAs (Decidable (_ ∨ _))

/-- A name that is not built in is counted from 0. -/
theorem start_of_not_mem {name : Text} (h : name ∉ Fields.keys builtin) :
  Count.start name = .number 0
  := by
  have hlookup : builtin.lookup name = none := Fields.get?_of_not_mem h
  rw [Count.start, hlookup]

/-- A name that is built in is counted from a text. -/
theorem exists_start {name : Text} (h : name ∈ Fields.keys builtin) :
  ∃ t, Count.start name = .text t
  := by
  obtain ⟨t, ht⟩ := Fields.mem_keys_iff.mp h
  have hlookup : builtin.lookup name = some t := ht
  rw [Count.start, hlookup]
  exact ⟨_, rfl⟩

/-- A number is counted up by adding. -/
theorem iterate_succ_number (n k : Nat) :
  Count.succ^[n] (.number k) = .number (k + n)
  := by
  induction n with
  | zero => rfl
  | succ n ih =>
    rw [Function.iterate_succ_apply', ih]
    rfl

/-- A text that is counted up is still a text. -/
theorem exists_iterate_succ_text (n : Nat) (t : Text) :
  ∃ t', Count.succ^[n] (.text t) = .text t'
  := by
  induction n with
  | zero => exact ⟨t, rfl⟩
  | succ n ih =>
    obtain ⟨t', ht'⟩ := ih
    rw [Function.iterate_succ_apply', ht']
    exact ⟨_, rfl⟩

/-- The table in which names are counted. -/
def countAll (names : List Text) : Fields Count := names.foldl countOpcode []

theorem countAll_append (names : List Text) (name : Text) :
  countAll (names ++ [name]) = countOpcode (countAll names) name
  := by
  rw [countAll, List.foldl_append]
  rfl

/-- In a table is what each name that came is counted up to, but for the one that is never
counted. -/
theorem get?_countAll (names : List Text) (name : Text) :
  (countAll names).get? name
    = if name = Text.ofString "__proto__" ∨ names.count name = 0 then none
      else some (Count.succ^[names.count name] (Count.start name))
  := by
  induction names using List.reverseRecOn with
  | nil => rw [if_pos (.inr rfl)]; rfl
  | append_singleton names last ih =>
    rw [countAll_append, countOpcode, List.count_append, List.count_singleton]
    split
    · next hproto =>
      rw [ih]
      by_cases hname : name = Text.ofString "__proto__"
      · rw [if_pos (.inl hname), if_pos (.inl hname)]
      · rw [beq_eq_false_iff_ne.mpr (hproto ▸ Ne.symm hname)]
        rfl
    · next hproto =>
      rw [Fields.get?_insert]
      by_cases hlast : name = last
      · have hne : name ≠ Text.ofString "__proto__" := hlast ▸ hproto
        rw [if_pos hlast, ← hlast, ih, beq_self_eq_true, if_pos rfl,
          if_neg (not_or.mpr ⟨hne, Nat.succ_ne_zero _⟩), Function.iterate_succ_apply']
        by_cases hzero : names.count name = 0
        · rw [if_pos (.inr hzero), hzero]
          rfl
        · rw [if_neg (not_or.mpr ⟨hne, hzero⟩)]
          rfl
      · rw [if_neg hlast, ih, beq_eq_false_iff_ne.mpr (Ne.symm hlast)]
        rfl

theorem nodup_keys_countAll (names : List Text) :
  (Fields.keys (countAll names)).Nodup
  := by
  induction names using List.reverseRecOn with
  | nil => apply List.nodup_nil
  | append_singleton names last ih =>
    rw [countAll_append, countOpcode]
    split
    · exact ih
    · apply Fields.nodup_keys_insert ih

/-- The keys of a table are the names that came, but for the one that is never counted. -/
theorem mem_keys_countAll_iff {names : List Text} {name : Text} :
  name ∈ Fields.keys (countAll names) ↔ name ∈ names ∧ name ≠ Text.ofString "__proto__"
  := by
  rw [Fields.mem_keys_iff, get?_countAll, ← List.count_pos_iff]
  split
  · next h =>
    constructor
    · rintro ⟨_, ⟨⟩⟩
    · rintro ⟨hpos, hne⟩
      rcases h with h | h
      · cases hne h
      · rw [h] at hpos
        cases hpos
  · next h =>
    obtain ⟨hne, hzero⟩ := not_or.mp h
    exact ⟨fun _ => ⟨Nat.pos_of_ne_zero hzero, hne⟩, fun _ => ⟨_, rfl⟩⟩

/-- How often the names of a table came adds up to how many names came, but for the one that is
never counted. -/
theorem sum_count_keys (names : List Text) :
  ((Fields.keys (countAll names)).map names.count).sum
    = names.countP (· ≠ Text.ofString "__proto__")
  := by
  have hperm : (Fields.keys (countAll names)).Perm
      (names.dedup.filter (· ≠ Text.ofString "__proto__")) := by
    apply (List.perm_ext_iff_of_nodup (nodup_keys_countAll names)
      (names.nodup_dedup.filter _)).mpr
    intro name
    rw [mem_keys_countAll_iff, List.mem_filter, List.mem_dedup, decide_eq_true_eq]
  have hcount (name : Text) :
      @List.count Text instBEqOfDecidableEq name names = names.count name := by
    congr 1
    apply lawful_beq_subsingleton
  have hsum := List.sum_map_count_dedup_filter_eq_countP (· ≠ Text.ofString "__proto__") names
  simp only [hcount] at hsum
  rw [(hperm.map _).sum_eq]
  exact hsum

/-- The number that a count is; a text counts nothing. -/
def Count.toNat : Count → Nat
  | number n => n
  | text _ => 0

/-- Counts that are the numbers of times that names came add up to how many came, but for the one
that is never counted. -/
theorem sum_toNat_countAll {names : List Text}
    (h : ∀ f ∈ countAll names, f.2 = .number (names.count f.1)) :
  ((countAll names).map fun f => f.2.toNat).sum = names.countP (· ≠ Text.ofString "__proto__")
  := by
  rw [← sum_count_keys, Fields.keys, List.map_map]
  congr 1
  apply List.map_congr_left
  intro f hf
  rw [h f hf]
  rfl

/-- The counts of names that came are the numbers of times that they came, and add up to how many
names came, exactly if none of these is built in. -/
theorem numbers_countAll_iff {names : List Text} :
  (∀ f ∈ countAll names, f.2 = .number (names.count f.1))
      ∧ ((countAll names).map fun f => f.2.toNat).sum = names.length
    ↔ ∀ name ∈ names, ¬ IsBuiltin name
  := by
  constructor
  · rintro ⟨hcounts, hsum⟩ name hname
    rw [sum_toNat_countAll hcounts, List.countP_eq_length] at hsum
    have hproto : name ≠ Text.ofString "__proto__" := of_decide_eq_true (hsum name hname)
    rintro (hbuiltin | hbuiltin)
    · exact hproto hbuiltin
    · obtain ⟨t, ht⟩ := exists_start hbuiltin
      obtain ⟨t', ht'⟩ := exists_iterate_succ_text (names.count name) t
      have hget := get?_countAll names name
      rw [if_neg (not_or.mpr ⟨hproto, (List.count_pos_iff.mpr hname).ne'⟩), ht, ht'] at hget
      cases hcounts _ (Fields.mem_of_get? hget)
  · intro hnames
    have hcounts : ∀ f ∈ countAll names, f.2 = .number (names.count f.1) := by
      rintro ⟨name, count⟩ hf
      have hget := Fields.get?_of_mem (nodup_keys_countAll names) hf
      obtain ⟨hname, hproto⟩ := mem_keys_countAll_iff.mp (List.mem_map_of_mem hf)
      have hstart := start_of_not_mem fun h => hnames name hname (.inr h)
      rw [get?_countAll, hstart, iterate_succ_number, Nat.zero_add] at hget
      split at hget
      · cases hget
      · exact (Option.some.inj hget).symm
    use hcounts
    rw [sum_toNat_countAll hcounts, List.countP_eq_length]
    intro name hname
    apply decide_eq_true
    exact fun h => hnames name hname (.inl h)

/-! ### Summaries -/

/-- What some events add to a summary: steps, and their opcodes. -/
structure Counted (s : Summary) (entries : List Entry) (s' : Summary) : Prop where
  totalEvents : s'.totalEvents = s.totalEvents
  skippedLines : s'.skippedLines = s.skippedLines
  steps : s'.steps = s.steps + (entries.filter Entry.isStep).length
  instructions : s'.instructionsByOpcode
    = ((entries.filter Entry.isStep).map Entry.opcode).foldl countOpcode s.instructionsByOpcode

namespace Counted

variable {s s' s'' : Summary} {entries entries' : List Entry}

theorem refl (s : Summary) :
  Counted s [] s
  := ⟨rfl, rfl, rfl, rfl⟩

theorem trans (h : Counted s entries s') (h' : Counted s' entries' s'') :
  Counted s (entries ++ entries') s''
  := by
  constructor
  · exact h'.totalEvents.trans h.totalEvents
  · exact h'.skippedLines.trans h.skippedLines
  · rw [h'.steps, h.steps, List.filter_append, List.length_append, Nat.add_assoc]
  · rw [h'.instructions, h.instructions, List.filter_append, List.map_append, List.foldl_append]

theorem know (s : Summary) (d : Detail) :
  Counted s [] (s.know d)
  := by
  rw [Summary.know]
  split <;> exact ⟨rfl, rfl, rfl, rfl⟩

theorem addStart (s : Summary) (e : Entry) :
  Counted s [] (s.addStart e)
  := (know s .startTime).trans ⟨rfl, rfl, rfl, rfl⟩

theorem addStatus (s : Summary) (e : Entry) :
  Counted s [] (s.addStatus e)
  := by
  rw [Summary.addStatus]
  split
  · exact (know s .status).trans ⟨rfl, rfl, rfl, rfl⟩
  · exact refl s

theorem addFault (s : Summary) (e : Entry) :
  Counted s [] (s.addFault e)
  := by
  rw [Summary.addFault]
  split
  · exact (know s .fault).trans ⟨rfl, rfl, rfl, rfl⟩
  · exact refl s

theorem addEnd (s : Summary) (e : Entry) :
  Counted s [] (s.addEnd e)
  := by
  have hend : Counted s [] { s.know .endTime with endTime := some e.ts } :=
    (know s .endTime).trans ⟨rfl, rfl, rfl, rfl⟩
  exact (hend.trans (addStatus _ e)).trans (addFault _ e)

/-- What an event adds. -/
theorem add (s : Summary) (e : Entry) :
  Counted s [e] (s.add e)
  := by
  by_cases hstep : e.event = Text.ofString "step"
  · have hadd : s.add e = s.addStep e := by
      rw [Summary.add, hstep, if_neg (by decide), if_pos rfl]
    have hfilter : [e].filter Entry.isStep = [e] := List.filter_cons_of_pos (decide_eq_true hstep)
    rw [hadd]
    constructor
    · rfl
    · rfl
    · rw [hfilter]
      rfl
    · rw [hfilter]
      rfl
  · have hnone : Counted s [] (s.add e) := by
      rw [Summary.add, if_neg hstep]
      split
      · apply addStart
      · split
        · apply addEnd
        · apply refl
    have hfilter : [e].filter Entry.isStep = [].filter Entry.isStep :=
      List.filter_cons_of_neg (by simpa [Entry.isStep] using hstep)
    constructor
    · exact hnone.totalEvents
    · exact hnone.skippedLines
    · rw [hfilter]
      exact hnone.steps
    · rw [hfilter]
      exact hnone.instructions

/-- What events add one after another. -/
theorem foldl (s : Summary) (entries : List Entry) :
  Counted s entries (entries.foldl Summary.add s)
  := by
  induction entries using List.reverseRecOn with
  | nil => apply refl
  | append_singleton entries e ih =>
    rw [List.foldl_append]
    exact ih.trans (add _ e)

end Counted

/-- What the summary of a text has counted. -/
theorem counts_of_summarize {content : Text} {s : Summary} (h : summarize content = some s) :
  s.totalEvents = (events content).length
  ∧ s.totalEvents + s.skippedLines = (contentLines content).length
  ∧ s.steps = (steps content).length
  ∧ s.instructionsByOpcode = countAll ((steps content).map Entry.opcode)
  := by
  have hevents : ((contentLines content).map Entry.ofLine?).filterMap id = events content := by
    rw [List.filterMap_map]
    rfl
  have hle : (events content).length ≤ (contentLines content).length := List.length_filterMap_le _ _
  simp only [summarize, hevents, List.length_map] at h
  split at h
  · cases h
  · next e entries he =>
    cases h
    have hcounted := Counted.foldl { runId := e.runId, totalEvents := (events content).length
                                     skippedLines := (contentLines content).length
                                       - (events content).length } (events content)
    refine ⟨hcounted.totalEvents, ?_, ?_, hcounted.instructions⟩
    · rw [hcounted.totalEvents, hcounted.skippedLines]
      exact Nat.add_sub_of_le hle
    · rw [hcounted.steps]
      apply Nat.zero_add

/-- Every count is a positive number and tells how many steps name its opcode, and the counts add up
to the number of steps. -/
structure Summary.Accounts (s : Summary) (steps : List Entry) : Prop where
  counts : ∀ f ∈ s.instructionsByOpcode,
    ∃ n, 0 < n ∧ f.2 = .number n ∧ n = steps.countP fun e => e.IsNamed f.1
  sum : (s.instructionsByOpcode.map fun f => f.2.toNat).sum = s.steps

/-- How many steps name an opcode. -/
theorem count_map_opcode (steps : List Entry) (name : Text) :
  (steps.map Entry.opcode).count name = steps.countP fun e => e.IsNamed name
  := by
  rw [List.count_eq_countP, List.countP_map]
  apply List.countP_congr
  intro e _
  rw [Function.comp_apply, beq_iff_eq, decide_eq_true_eq, Entry.isNamed_iff]

/-- The summary of a text, whatever it holds, accounts for its lines and its events: as many lines as
are not blank are events or skipped, and the steps are the events of that name.  An opcode that some
step names is found with its count, which is what the name begins with, counted up once for each of
these steps; the others are not found, nor is `__proto__`.  The counts are positive numbers of steps
that add up to all steps exactly if no step names an opcode that is built in. -/
theorem summary_accounts {content : Text} {s : Summary} (h : summarize content = some s) :
  s.totalEvents = (events content).length
  ∧ s.totalEvents + s.skippedLines = (contentLines content).length
  ∧ s.steps = (steps content).length
  ∧ (∀ name, s.instructionsByOpcode.get? name
      = if name = Text.ofString "__proto__" ∨ ∀ e ∈ steps content, ¬ e.IsNamed name then none
        else some (Count.succ^[(steps content).countP fun e => e.IsNamed name] (Count.start name)))
  ∧ (s.Accounts (steps content) ↔ ∀ e ∈ steps content, ∀ name, e.IsNamed name → ¬ IsBuiltin name)
  := by
  obtain ⟨hevents, hlines, hsteps, hcounts⟩ := counts_of_summarize h
  have hcount := count_map_opcode (steps content)
  refine ⟨hevents, hlines, hsteps, ?found, ?accounts⟩
  case found =>
    intro name
    have hnone : (steps content).countP (fun e => e.IsNamed name) = 0
        ↔ ∀ e ∈ steps content, ¬ e.IsNamed name := by
      simp only [List.countP_eq_zero, decide_eq_true_eq]
    rw [hcounts, get?_countAll, hcount]
    simp only [hnone]
  case accounts =>
    have hnames : (∀ e ∈ steps content, ∀ name, e.IsNamed name → ¬ IsBuiltin name)
        ↔ ∀ name ∈ (steps content).map Entry.opcode, ¬ IsBuiltin name := by
      simp only [List.forall_mem_map, Entry.isNamed_iff, forall_eq']
    rw [hnames, ← numbers_countAll_iff, List.length_map, ← hcounts, ← hsteps]
    constructor
    · rintro ⟨hnumbers, hsum⟩
      refine ⟨?_, hsum⟩
      intro f hf
      obtain ⟨n, -, hn, rfl⟩ := hnumbers f hf
      rw [hn, hcount]
    · rintro ⟨hnumbers, hsum⟩
      refine ⟨?_, hsum⟩
      intro f hf
      refine ⟨_, ?_, hnumbers f hf, hcount f.1⟩
      rw [hcounts] at hf
      apply List.count_pos_iff.mpr
      exact (mem_keys_countAll_iff.mp (List.mem_map_of_mem hf)).1

/-- A trace with a step, a line that is no event, a line of blanks, and a step whose instruction is
not told. -/
def brokenTrace : Text :=
  Text.join [Text.lineFeed]
    ["\x7b\"ts\":\"\",\"runId\":\"r\",\"event\":\"step\",\"data\":\x7b\"instr\":\"loadc 1\"\x7d\x7d", "halt", "  ",
      "\x7b\"ts\":\"\",\"runId\":\"q\",\"event\":\"step\"\x7d"]

theorem summary_accounts_broken :
  ∃ s, summarize brokenTrace = some s
    ∧ s.totalEvents + s.skippedLines = 3
    ∧ s.Accounts (steps brokenTrace)
  := by
  have hsome : (summarize brokenTrace).isSome = true := by decide +kernel
  obtain ⟨s, hs⟩ := Option.isSome_iff_exists.mp hsome
  obtain ⟨-, hlines, -, -, haccounts⟩ := summary_accounts hs
  have hthree : (contentLines brokenTrace).length = 3 := by decide +kernel
  have hnames : ∀ e ∈ steps brokenTrace, ¬ IsBuiltin e.opcode := by decide +kernel
  refine ⟨s, hs, hlines.trans hthree, haccounts.mpr ?_⟩
  intro e he name hname
  rw [← Entry.isNamed_iff.mp hname]
  apply hnames e he

/-- A step whose instruction has the name of an inherited member of a table is counted up from the
text of the member. -/
theorem summary_counts_fail_builtin :
  ∃ s, summarize
      "\x7b\"ts\":\"\",\"runId\":\"r\",\"event\":\"step\",\"data\":\x7b\"instr\":\"constructor\"\x7d\x7d" = some s
    ∧ s.steps = 1
    ∧ ¬ ∀ f ∈ s.instructionsByOpcode, ∃ n, 0 < n ∧ f.2 = .number n
  := by
  have hsummary : (summarize
        "\x7b\"ts\":\"\",\"runId\":\"r\",\"event\":\"step\",\"data\":\x7b\"instr\":\"constructor\"\x7d\x7d").map
        (fun s => (s.steps, s.instructionsByOpcode))
      = some (1, [(Text.ofString "constructor",
        Count.text "function Object() \x7b [native code] \x7d1")]) := by
    decide +kernel
  obtain ⟨s, hs, hcounts⟩ := Option.map_eq_some_iff.mp hsummary
  obtain ⟨hsteps, hcounts⟩ := Prod.mk.inj hcounts
  refine ⟨s, hs, hsteps, ?_⟩
  intro hnumbers
  rw [hcounts] at hnumbers
  obtain ⟨n, -, ⟨⟩⟩ := hnumbers _ List.mem_cons_self

end Trace

end StackMachine
