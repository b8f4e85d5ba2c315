import Mathlib.Data.List.TakeWhile
import StackMachine.Proofs.Json.RoundTrip
import StackMachine.Trace.Event
import StackMachine.Trace.Summary

/-!
# Entries of a trace

A line on which an event is written reads back as an entry with the time, the run, the name and
the data of the event, whatever the name of the run is made of.  So the entries of a trace are
those of the events that were written to it.
-/

namespace StackMachine

/-! ### Lines -/

/-- A text in which some unit is no blank is not blank. -/
theorem Text.trim_ne_nil {t : Text} {u : CodeUnit} (hu : u ∈ t) (hblank : u.isBlank = false) :
  t.trim ≠ []
  := by
  intro h
  rw [trim, List.reverse_eq_nil_iff, List.dropWhile_eq_nil_iff] at h
  rw [← List.takeWhile_append_dropWhile (p := CodeUnit.isBlank) (l := t), List.mem_append] at hu
  rcases hu with hu | hu
  · rw [List.mem_takeWhile_imp hu] at hblank
    cases hblank
  · rw [h u (List.mem_reverse.mpr hu)] at hblank
    cases hblank

/-- Lines with a line feed after each are the parts between line feeds, and an empty one. -/
theorem Text.flatMap_lineFeed (lines : List Text) :
  lines.flatMap (· ++ [lineFeed]) = List.intercalate [lineFeed] (lines ++ [[]])
  := by
  induction lines with
  | nil => rfl
  | cons line lines ih =>
    rw [List.flatMap_cons, ih, List.cons_append, List.append_assoc]
    cases lines <;> simp [List.intercalate]

/-- The lines of a text that is made of lines which are not blank. -/
theorem Trace.contentLines_flatMap {lines : List Text}
    (h : ∀ line ∈ lines, Text.lineFeed ∉ line ∧ line.trim ≠ []) :
  contentLines (lines.flatMap (· ++ [Text.lineFeed])) = lines
  := by
  have hparts : ∀ line ∈ lines ++ [[]], Text.lineFeed ∉ line := by
    intro line hline
    rcases List.mem_append.mp hline with hline | hline
    · apply (h line hline).1
    · rw [List.mem_singleton.mp hline]
      apply List.not_mem_nil
  have hfilter : lines.filter (fun line => line.trim ≠ []) = lines :=
    List.filter_eq_self.mpr fun line hline => decide_eq_true (h line hline).2
  rw [contentLines, Text.flatMap_lineFeed, List.splitOn_intercalate _ hparts (by simp),
    List.filter_append, hfilter]
  apply List.append_nil

/-! ### Exact events -/

/-- An event whose numbers are exact: the number of instructions, the place of an instruction,
the number of steps. -/
inductive Event.IsExact : Event → Prop where
  | runStart {n : Nat} (h : n ≤ Number.maxSafe) : IsExact (.runStart n)
  | step {pc : Nat} (h : pc ≤ Number.maxSafe) (i : Instruction Nat) (stack : List Int)
      (memory : Array Int) : IsExact (.step pc i stack memory)
  | halted {steps : Nat} (h : steps ≤ Number.maxSafe) : IsExact (.runEnd .halted steps)
  | faulted (fault : Fault) {index steps : Nat} (hindex : Number.IsFloat index)
      (h : steps ≤ Number.maxSafe) : IsExact (.runEnd (.faulted fault index) steps)

namespace Json

/-- A word in JSON is exact, for it is a string if it is no exact number. -/
theorem isExact_word (w : Int) :
  (Word.toJson w).IsExact
  := by
  rw [Word.toJson]
  split
  · next h => exact .int (Number.isFloat_of_le (Nat.le_trans h (by decide)))
  · apply IsExact.string

theorem isExact_words (ws : List Int) :
  (Word.listToJson ws).IsExact
  := by
  apply IsExact.array
  intro v hv
  obtain ⟨w, -, rfl⟩ := List.mem_map.mp hv
  apply isExact_word

end Json

namespace Event

theorem IsExact.data {e : Event} (h : e.IsExact) :
  e.data.IsExact
  := by
  cases h with
  | runStart h =>
    apply Json.isExact_object rfl
    simp [Json.isExact_ofNat_of_le h]
  | step h i stack memory =>
    apply Json.isExact_object rfl
    simp [Json.isExact_ofNat_of_le h, Json.isExact_words, Json.IsExact.string]
  | halted h =>
    apply Json.isExact_object rfl
    simp [Json.isExact_ofNat_of_le h, Json.IsExact.string]
  | faulted fault hindex h =>
    apply Json.isExact_object rfl
    simp [Json.isExact_ofNat_of_le h, Json.isExact_ofNat hindex, Json.IsExact.string]

theorem IsExact.toJson {e : Event} (h : e.IsExact) (time : Int) (runId : Text) :
  (e.toJson time runId).IsExact
  := by
  apply Json.isExact_object rfl
  simp [h.data, Json.IsExact.string]

/-- What an event tells beside its name, as fields. -/
def fields (e : Event) : Fields Json :=
  match e.data with
  | .object fields => fields
  | _ => []

/-- The entry of an event of a run at a time. -/
def entry (time : Int) (runId : Text) (e : Event) : Trace.Entry :=
  ⟨Timestamp.toText time, runId, e.name, some e.fields⟩

/-- The line of an event without the line feed. -/
def body (time : Int) (runId : Text) (e : Event) : Text := (e.toJson time runId).compact

/-- The line of an exact event reads back as the entry of the event. -/
theorem IsExact.ofLine? {e : Event} (h : e.IsExact) (time : Int) (runId : Text) :
  Trace.Entry.ofLine? (e.body time runId) = some (e.entry time runId)
  := by
  rw [Trace.Entry.ofLine?, body, (h.toJson time runId).parse?]
  rcases e with _ | _ | ⟨_ | _, _⟩ <;> rfl

/-- The line of an exact event is one line, and it is not blank. -/
theorem IsExact.body {e : Event} (h : e.IsExact) (time : Int) (runId : Text) :
  Text.lineFeed ∉ e.body time runId ∧ (e.body time runId).trim ≠ []
  := by
  constructor
  · intro hmem
    have := List.all_eq_true.mp (h.toJson time runId).isPrintable _ hmem
    contradiction
  · apply Text.trim_ne_nil (u := 0x7B) _ rfl
    apply List.mem_cons_self

/-- The lines of events at times. -/
def linesAt (runId : Text) (stamped : List (Int × Event)) : Text :=
  stamped.flatMap fun p => p.2.line p.1 runId

/-- The lines that are written of a run are those of its events, at times that are a millisecond
apart. -/
theorem lines_eq_linesAt (time : Int) (runId : Text) (events : List Event) :
  lines time runId events
    = linesAt runId (((List.range events.length).map fun k : Nat => time + (k : Int)).zip events)
  := by
  induction events generalizing time with
  | nil => rfl
  | cons e events ih =>
    have hshift : (fun k : Nat => time + ((k + 1 : Nat) : Int))
        = fun k : Nat => time + 1 + (k : Int) := by
      funext k
      omega
    rw [lines, ih, List.length_cons, List.range_succ_eq_map, List.map_cons, List.map_map]
    change _ = linesAt runId ((time + 0, e) :: ((List.range events.length).map
      fun k : Nat => time + ((k + 1 : Nat) : Int)).zip events)
    rw [hshift, Int.add_zero]
    rfl

end Event

namespace Trace

/-- The entries of the lines of exact events, each of which belongs to a run and came at a time. -/
theorem map_ofLine?_lines {events : List (Text × Int × Event)} (h : ∀ p ∈ events, p.2.2.IsExact) :
  (contentLines (events.flatMap fun p => p.2.2.line p.2.1 p.1)).map Entry.ofLine?
    = events.map fun p => some (p.2.2.entry p.2.1 p.1)
  := by
  have hlines : (events.flatMap fun p => p.2.2.line p.2.1 p.1)
      = (events.map fun p => p.2.2.body p.2.1 p.1).flatMap (· ++ [Text.lineFeed]) := by
    rw [List.flatMap_map]
    rfl
  rw [hlines, contentLines_flatMap, List.map_map]
  · apply List.map_congr_left
    intro p hp
    apply (h p hp).ofLine?
  · intro line hline
    obtain ⟨p, hp, rfl⟩ := List.mem_map.mp hline
    apply (h p hp).body

/-- The entries of the lines of the exact events of one run. -/
theorem map_ofLine?_linesAt (runId : Text) {stamped : List (Int × Event)}
    (h : ∀ p ∈ stamped, p.2.IsExact) :
  (contentLines (Event.linesAt runId stamped)).map Entry.ofLine?
    = stamped.map fun p => some (p.2.entry p.1 runId)
  := by
  have hexact : ∀ p ∈ stamped.map (runId, ·), p.2.2.IsExact := List.forall_mem_map.mpr h
  have hread := map_ofLine?_lines hexact
  rw [List.flatMap_map, List.map_map] at hread
  exact hread

/-- The summary of a trace all of whose lines are entries. -/
theorem summarize_of_entries {content : Text} (e : Entry) (entries : List Entry)
    (h : (contentLines content).map Entry.ofLine? = (e :: entries).map some) :
  summarize content
    = some ((e :: entries).foldl Summary.add
        { runId := e.runId, totalEvents := entries.length + 1, skippedLines := 0 })
  := by
  have hentries : ((e :: entries).map some).filterMap id = e :: entries := by
    rw [List.filterMap_map]
    apply List.filterMap_some
  simp only [summarize, h, hentries, List.length_map, Nat.sub_self]
  rfl

end Trace

end StackMachine
