import Mathlib.Data.List.Induction
import Mathlib.Tactic.Common
import StackMachine.Text.Escape

/-!
# Lines of texts

A text is cut into lines behind its line feeds.  What stands behind the last line feed before a
place is on the same line, and how many line feeds there are before it is the number of the lines
above.
-/

namespace StackMachine

namespace Text

/-- A text that is empty or ends with a line feed, so that what follows begins a line. -/
def EndsLine (t : Text) : Prop := t = [] ∨ t.getLast? = some lineFeed

theorem endsLine_concat (t : Text) :
  EndsLine (t ++ [lineFeed])
  := .inr List.getLast?_concat

theorem EndsLine.tail {u : CodeUnit} {t : Text} (h : EndsLine (u :: t)) :
  EndsLine t
  := by
  cases t with
  | nil => exact .inl rfl
  | cons v t =>
    rcases h with h | h
    · cases h
    · right
      rwa [List.getLast?_cons_cons] at h

theorem EndsLine.of_append {w t : Text} (h : EndsLine (w ++ t)) :
  EndsLine t
  := by
  induction w with
  | nil => exact h
  | cons u w ih => exact ih h.tail

theorem EndsLine.append {s t : Text} (hs : EndsLine s) (ht : EndsLine t) :
  EndsLine (s ++ t)
  := by
  rcases ht with rfl | ht
  · rwa [List.append_nil]
  · right
    rw [List.getLast?_append, ht, Option.some_or]

/-- A unit that is no line feed is not the last one. -/
theorem EndsLine.ne_nil {u : CodeUnit} {t : Text} (h : EndsLine (u :: t)) (hu : u ≠ lineFeed) :
  t ≠ []
  := by
  rintro rfl
  rcases h with h | h
  · cases h
  · cases h
    cases hu rfl

theorem EndsLine.mem {u : CodeUnit} {t : Text} (h : EndsLine (u :: t)) (hu : u ≠ lineFeed) :
  lineFeed ∈ t
  := List.mem_of_getLast? (h.tail.resolve_left (h.ne_nil hu))

theorem lines_cons_lineFeed (t : Text) :
  lines (lineFeed :: t) = [lineFeed] :: lines t
  := by
  rw [lines, if_pos rfl]

/-- A unit that is no line feed belongs to the line of what follows. -/
theorem lines_cons {u : CodeUnit} (hu : u ≠ lineFeed) (t : Text) :
  lines (u :: t) = (u :: (lines t).headD []) :: (lines t).tail
  := by
  rw [lines, if_neg hu]
  cases lines t <;> rfl

theorem lines_ne_nil {t : Text} (ht : t ≠ []) :
  lines t ≠ []
  := by
  cases t with
  | nil => cases ht rfl
  | cons u t =>
    by_cases hu : u = lineFeed
    · rw [hu, lines_cons_lineFeed]
      apply List.cons_ne_nil
    · rw [lines_cons hu]
      apply List.cons_ne_nil

/-- Behind a line feed the lines begin anew. -/
theorem lines_append {a : Text} (ha : EndsLine a) (b : Text) :
  lines (a ++ b) = lines a ++ lines b
  := by
  induction a with
  | nil => rfl
  | cons u a ih =>
    have htail := ih ha.tail
    rw [List.cons_append]
    by_cases hu : u = lineFeed
    · rw [hu, lines_cons_lineFeed, lines_cons_lineFeed, htail, List.cons_append]
    · obtain ⟨l, ls, hlines⟩ := List.exists_cons_of_ne_nil (lines_ne_nil (ha.ne_nil hu))
      rw [lines_cons hu, lines_cons hu, htail, hlines]
      rfl

/-- There are as many lines as line feeds in a text that ends with one. -/
theorem length_lines {a : Text} (ha : EndsLine a) :
  (lines a).length = a.count lineFeed
  := by
  induction a with
  | nil => rfl
  | cons u a ih =>
    have htail := ih ha.tail
    by_cases hu : u = lineFeed
    · rw [hu, lines_cons_lineFeed, List.count_cons_self, List.length_cons, htail]
    · have hpos := List.length_pos_iff.mpr (lines_ne_nil (ha.ne_nil hu))
      rw [lines_cons hu, List.count_cons_of_ne hu, List.length_cons, List.length_tail]
      omega

/-- What has no line feed before its last unit is on the first line. -/
theorem exists_line {w : Text} (hw : w ≠ []) (hline : lineFeed ∉ w.dropLast) (b : Text) :
  ∃ l, (lines (w ++ b))[0]? = some (w ++ l)
  := by
  induction w with
  | nil => cases hw rfl
  | cons u w ih =>
    cases w with
    | nil =>
      by_cases hu : u = lineFeed
      · use []
        rw [hu, List.singleton_append, lines_cons_lineFeed]
        rfl
      · use (lines b).headD []
        rw [List.singleton_append, lines_cons hu]
        rfl
    | cons v w =>
      rw [List.dropLast_cons_cons, List.mem_cons, not_or] at hline
      obtain ⟨l, hl⟩ := ih (List.cons_ne_nil v w) hline.2
      use l
      rw [← List.head?_eq_getElem?] at hl ⊢
      rw [List.cons_append, lines_cons (Ne.symm hline.1), List.headD_eq_head?_getD, hl]
      rfl

/-- Every text is cut behind its last line feed. -/
theorem exists_endsLine_append (t : Text) :
  ∃ a b, t = a ++ b ∧ EndsLine a ∧ lineFeed ∉ b
  := by
  induction t using List.reverseRecOn with
  | nil => exact ⟨[], [], rfl, .inl rfl, by simp⟩
  | append_singleton t u ih =>
    by_cases hu : u = lineFeed
    · rw [hu]
      exact ⟨t ++ [lineFeed], [], (List.append_nil _).symm, endsLine_concat t, by simp⟩
    · obtain ⟨a, b, rfl, ha, hb⟩ := ih
      refine ⟨a, b ++ [u], List.append_assoc a b [u], ha, ?_⟩
      rw [List.mem_append, List.mem_singleton, not_or]
      exact ⟨hb, Ne.symm hu⟩

end Text

end StackMachine
