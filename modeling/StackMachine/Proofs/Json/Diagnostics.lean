import Mathlib.Data.Option.Basic
import StackMachine.Diagnostic
import StackMachine.Proofs.Fields
import StackMachine.Proofs.Json.RoundTrip
import StackMachine.Proofs.Number.Integers

/-!
# Diagnostics in JSON and back

Diagnostics whose places are safe integers are written in JSON on one line and read back as they
are, whatever units their texts are made of.  The fields that a diagnostic lacks are not in its
object, and no others are.  Only the sign of zero is not written.
-/

namespace StackMachine

namespace Json

/-! ### Records -/

section

variable {fields fields' : List (Text × Option Json)}

/-- The fields of a record that are present. -/
def present (fields : List (Text × Option Json)) : Fields Json :=
  fields.filterMap fun field => field.2.map fun value => (field.1, value)

theorem present_sublist (fields : List (Text × Option Json)) :
  (Fields.keys (present fields)).Sublist (Fields.keys fields)
  := by
  induction fields with
  | nil => apply List.Sublist.refl
  | cons f fields ih =>
    obtain ⟨k, _ | v⟩ := f
    · apply ih.cons
    · apply ih.cons_cons

/-- What is found in a record is what is given for the key, if it is present. -/
theorem field?_record (hkeys : (Fields.keys fields).Nodup) (key : Text) :
  (record fields).field? key = (Fields.get? fields key).join
  := by
  change Fields.get? (present fields) key = _
  induction fields with
  | nil => rfl
  | cons f fields ih =>
    obtain ⟨k, v⟩ := f
    obtain ⟨hk, hrest⟩ := List.nodup_cons.mp hkeys
    rw [Fields.get?_cons]
    cases v with
    | none =>
      change Fields.get? (present fields) key = _
      rw [ih hrest]
      split
      · next h =>
        rw [h, Fields.get?_of_not_mem hk]
        rfl
      · rfl
    | some v =>
      change Fields.get? ((k, v) :: present fields) key = _
      rw [Fields.get?_cons, ih hrest]
      split <;> rfl

/-- Nothing is found in a record under a key that is not listed. -/
theorem mem_keys_of_field?_record {key : Text} (h : ((record fields).field? key).isSome = true) :
  key ∈ Fields.keys fields
  := by
  obtain ⟨v, hv⟩ := Option.isSome_iff_exists.mp h
  exact (present_sublist fields).subset (Fields.mem_keys_iff.mpr ⟨v, hv⟩)

/-- A record with exact fields, whose keys can be compared one by one. -/
theorem isExact_record
    (hkeys : decide (Fields.keys fields).Nodup && (Fields.keys fields).all (·.toIndex?.isNone))
    (h : ∀ f ∈ fields, ∀ v, f.2 = some v → v.IsExact) :
  (record fields).IsExact
  := by
  obtain ⟨hnodup, hindex⟩ := Bool.and_eq_true_iff.mp hkeys
  apply IsExact.object ((present_sublist fields).nodup (of_decide_eq_true hnodup))
  · intro k hk
    have hk := (present_sublist fields).subset hk
    exact Option.isNone_iff_eq_none.mp (List.all_eq_true.mp hindex k hk)
  · intro f hf
    obtain ⟨field, hfield, hvalue⟩ := List.mem_filterMap.mp hf
    obtain ⟨v, hv, rfl⟩ := Option.map_eq_some_iff.mp hvalue
    exact h field hfield v hv

/-- Items are written one by one. -/
theorem compactItems_eq_intercalate (items : List Json) :
  compactItems items = List.intercalate [0x2C] (items.map compact)
  := by
  induction items with
  | nil => rfl
  | cons v items ih =>
    cases items with
    | nil => simp [compactItems]
    | cons w items => simp [compactItems, ih]

/-- Fields are written one by one. -/
theorem compactFields_eq_intercalate (fields : List (Text × Json)) :
  compactFields fields
    = List.intercalate [0x2C] (fields.map fun f => quoted f.1 ++ 0x3A :: f.2.compact)
  := by
  induction fields with
  | nil => rfl
  | cons f fields ih =>
    obtain ⟨k, v⟩ := f
    cases fields with
    | nil => simp [compactFields]
    | cons f' fields => simp [compactFields, ih]

/-- Records with the same keys whose values are written in the same way are. -/
theorem compact_record_congr
    (h : fields.map (Prod.map id (Option.map compact))
      = fields'.map (Prod.map id (Option.map compact))) :
  (record fields).compact = (record fields').compact
  := by
  have htexts (fields : List (Text × Option Json)) :
      (present fields).map (fun f => quoted f.1 ++ 0x3A :: f.2.compact)
        = (fields.map (Prod.map id (Option.map compact))).filterMap
          fun f => f.2.map fun t => quoted f.1 ++ 0x3A :: t := by
    rw [present, List.map_filterMap, List.filterMap_map]
    congr 1
    funext f
    change _ = Option.map _ (Option.map compact f.2)
    rw [Option.map_map, Option.map_map]
    rfl
  rw [record, record, compact, compact, compactFields_eq_intercalate, compactFields_eq_intercalate]
  change [0x7B] ++ List.intercalate [0x2C] ((present fields).map _) ++ [0x7D]
    = [0x7B] ++ List.intercalate [0x2C] ((present fields').map _) ++ [0x7D]
  rw [htexts, htexts, h]

end

/-! ### Objects of diagnostics -/

/-- A value is an integer, which a number is. -/
def IsInteger (v : Json) (x : Number) : Prop := ∃ n : Int, v = .number (.int n) ∧ x.toInt? = some n

/-- A value is an object that tells a stretch of a file, and nothing else. -/
structure IsSpan (v : Json) (s : Span) : Prop where
  file : v.field? "file" = some (.string s.file)
  startLine : Option.Rel IsInteger (v.field? "startLine") (some s.startLine)
  startCol : Option.Rel IsInteger (v.field? "startCol") (some s.startCol)
  endLine : Option.Rel IsInteger (v.field? "endLine") (some s.endLine)
  endCol : Option.Rel IsInteger (v.field? "endCol") (some s.endCol)
  only : ∀ key, (v.field? key).isSome = true →
    key ∈ ["file", "startLine", "startCol", "endLine", "endCol"].map Text.ofString

/-- A value is an object that tells what a diagnostic does, and nothing else.  What the diagnostic
lacks is not in the object. -/
structure IsDiagnostic (v : Json) (d : Diagnostic) : Prop where
  code : v.field? "code" = some (.string d.code)
  message : v.field? "message" = some (.string d.message)
  span : Option.Rel IsSpan (v.field? "span") d.span
  index : Option.Rel IsInteger (v.field? "at") d.index
  hint : v.field? "hint" = d.hint.map .string
  only : ∀ key, (v.field? key).isSome = true →
    key ∈ ["code", "message", "span", "at", "hint"].map Text.ofString

end Json

/-- The fields that the object of a diagnostic can have. -/
def Diagnostic.fields (d : Diagnostic) : List (Text × Option Json) :=
  [("code", some (.string d.code)), ("message", some (.string d.message)),
    ("span", d.span.map Span.toJson), ("at", d.index.map Json.number),
    ("hint", d.hint.map Json.string)]

theorem Diagnostic.keys_fields (d : Diagnostic) :
  Fields.keys d.fields = ["code", "message", "span", "at", "hint"].map Text.ofString
  := rfl

/-! ### The sign of zero -/

/-- A stretch of a file with zero for negative zero. -/
def Span.unsigned (s : Span) : Span :=
  { s with
    startLine := s.startLine.unsigned
    startCol := s.startCol.unsigned
    endLine := s.endLine.unsigned
    endCol := s.endCol.unsigned }

/-- A diagnostic with zero for negative zero. -/
def Diagnostic.unsigned (d : Diagnostic) : Diagnostic :=
  { d with span := d.span.map Span.unsigned, index := d.index.map Number.unsigned }

namespace Json

theorem numberText_unsigned (x : Number) :
  numberText x.unsigned = numberText x
  := by
  cases x <;> rfl

theorem compact_span_unsigned (s : Span) :
  s.unsigned.toJson.compact = s.toJson.compact
  := by
  simp only [Span.toJson, Span.unsigned, compact, compactFields, numberText_unsigned]

theorem compact_diagnostic_unsigned (d : Diagnostic) :
  d.unsigned.toJson.compact = d.toJson.compact
  := by
  have hspan : ((d.span.map Span.unsigned).map Span.toJson).map compact
      = (d.span.map Span.toJson).map compact := by
    cases d.span with
    | none => rfl
    | some s => exact congrArg some (compact_span_unsigned s)
  have hindex : ((d.index.map Number.unsigned).map number).map compact
      = (d.index.map number).map compact := by
    cases d.index with
    | none => rfl
    | some x => exact congrArg some (numberText_unsigned x)
  -- the other fields hold no numbers
  apply compact_record_congr
  simp only [List.map_cons, List.map_nil, Prod.map, Diagnostic.unsigned, hspan, hindex]

/-! ### What is told of a diagnostic -/

variable {v : Json} {x y : Number}

theorem IsInteger.unsigned_eq (h : v.IsInteger x) (h' : v.IsInteger y) :
  x.unsigned = y.unsigned
  := by
  obtain ⟨n, rfl, hn⟩ := h
  obtain ⟨_, ⟨⟩, hn'⟩ := h'
  rw [Number.unsigned_of_toInt? hn, Number.unsigned_of_toInt? hn']

/-- What may be missing is told in one way, if what is there is. -/
theorem map_eq_of_rel {α β : Type} {R : Json → α → Prop} {f : α → β}
    (hR : ∀ v a b, R v a → R v b → f a = f b) {o : Option Json} {a b : Option α}
    (h : Option.Rel R o a) (h' : Option.Rel R o b) :
  a.map f = b.map f
  := by
  cases h with
  | none =>
    cases h'
    rfl
  | some h =>
    cases h' with
    | some h' => rw [Option.map_some, Option.map_some, hR _ _ _ h h']

theorem map_unsigned_eq {a b : Option Number} {o : Option Json} (h : Option.Rel IsInteger o a)
    (h' : Option.Rel IsInteger o b) :
  a.map Number.unsigned = b.map Number.unsigned
  := map_eq_of_rel (R := IsInteger) (fun _ _ _ hx hy => hx.unsigned_eq hy) h h'

theorem IsSpan.unsigned_eq {s t : Span} (h : v.IsSpan s) (h' : v.IsSpan t) :
  s.unsigned = t.unsigned
  := by
  have hfile := h.file.symm.trans h'.file
  have hstartLine := map_unsigned_eq h.startLine h'.startLine
  have hstartCol := map_unsigned_eq h.startCol h'.startCol
  have hendLine := map_unsigned_eq h.endLine h'.endLine
  have hendCol := map_unsigned_eq h.endCol h'.endCol
  simp only [Option.map_some, Option.some.injEq, string.injEq]
    at hfile hstartLine hstartCol hendLine hendCol
  rw [Span.unsigned, Span.unsigned, hfile, hstartLine, hstartCol, hendLine, hendCol]

theorem IsDiagnostic.unsigned_eq {d d' : Diagnostic} (h : v.IsDiagnostic d)
    (h' : v.IsDiagnostic d') :
  d.unsigned = d'.unsigned
  := by
  have hcode := h.code.symm.trans h'.code
  have hmessage := h.message.symm.trans h'.message
  have hspan := map_eq_of_rel (R := IsSpan) (fun _ _ _ hs ht => hs.unsigned_eq ht) h.span h'.span
  have hindex := map_unsigned_eq h.index h'.index
  have hhint := Option.map_injective (fun _ _ => string.inj) (h.hint.symm.trans h'.hint)
  simp only [Option.some.injEq, string.injEq] at hcode hmessage
  rw [Diagnostic.unsigned, Diagnostic.unsigned, hcode, hmessage, hspan, hindex, hhint]

/-- What several values tell is told of as many diagnostics, one each. -/
theorem map_unsigned_eq_of_forall₂ {items : List Json} {ds ds' : List Diagnostic}
    (h : List.Forall₂ IsDiagnostic items ds) (h' : List.Forall₂ IsDiagnostic items ds') :
  ds.map Diagnostic.unsigned = ds'.map Diagnostic.unsigned
  := by
  induction h generalizing ds' with
  | nil =>
    cases h'
    rfl
  | cons hd _ ih =>
    cases h' with
    | cons hd' h' => rw [List.map_cons, List.map_cons, hd.unsigned_eq hd', ih h']

end Json

/-! ### Safe places -/

/-- The numbers that tell a stretch of a file. -/
def Span.numbers (s : Span) : List Number := [s.startLine, s.startCol, s.endLine, s.endCol]

/-- The numbers that tell where a diagnostic points to. -/
def Diagnostic.numbers (d : Diagnostic) : List Number :=
  d.span.toList.flatMap Span.numbers ++ d.index.toList

/-- A diagnostic whose places are safe integers. -/
def Diagnostic.IsSafe (d : Diagnostic) : Prop := ∀ x ∈ d.numbers, x.toSafeInt?.isSome = true

namespace Json

variable {x : Number}

theorem isExact_number (h : x.toSafeInt?.isSome = true) :
  (number x.unsigned).IsExact
  := by
  obtain ⟨n, hn⟩ := Option.isSome_iff_exists.mp h
  obtain ⟨hint, hle⟩ := Number.toSafeInt?_eq_some_iff.mp hn
  rw [Number.unsigned_of_toInt? hint]
  exact .int (Number.isFloat_of_le (Nat.le_trans hle (by decide)))

theorem isInteger_number (h : x.toSafeInt?.isSome = true) :
  (number x.unsigned).IsInteger x
  := by
  obtain ⟨n, hn⟩ := Option.isSome_iff_exists.mp h
  obtain ⟨hint, -⟩ := Number.toSafeInt?_eq_some_iff.mp hn
  exact ⟨n, congrArg number (Number.unsigned_of_toInt? hint), hint⟩

section

variable {s : Span} (hs : ∀ x ∈ s.numbers, x.toSafeInt?.isSome = true)

include hs

theorem isExact_span :
  s.unsigned.toJson.IsExact
  := by
  simp only [Span.numbers, List.forall_mem_cons] at hs
  obtain ⟨hstartLine, hstartCol, hendLine, hendCol, -⟩ := hs
  apply isExact_object rfl
  simp [Span.unsigned, IsExact.string, isExact_number, hstartLine, hstartCol, hendLine, hendCol]

theorem isSpan_span :
  s.unsigned.toJson.IsSpan s
  := by
  simp only [Span.numbers, List.forall_mem_cons] at hs
  obtain ⟨hstartLine, hstartCol, hendLine, hendCol, -⟩ := hs
  constructor
  · rfl
  · exact .some (isInteger_number hstartLine)
  · exact .some (isInteger_number hstartCol)
  · exact .some (isInteger_number hendLine)
  · exact .some (isInteger_number hendCol)
  · intro key hkey
    obtain ⟨w, hw⟩ := Option.isSome_iff_exists.mp hkey
    exact Fields.mem_keys_iff.mpr ⟨w, hw⟩

end

section

variable {d : Diagnostic} (hd : d.IsSafe)

include hd

theorem safe_of_span {s : Span} (hs : d.span = some s) :
  ∀ x ∈ s.numbers, x.toSafeInt?.isSome = true
  := by
  intro x hx
  apply hd
  rw [Diagnostic.numbers, hs]
  exact List.mem_append_left _ (by simpa using hx)

theorem safe_of_index {x : Number} (hx : d.index = some x) :
  x.toSafeInt?.isSome = true
  := by
  apply hd
  rw [Diagnostic.numbers, hx]
  exact List.mem_append_right _ (by simp)

/-- The object of a safe diagnostic is exact. -/
theorem isExact_diagnostic :
  d.unsigned.toJson.IsExact
  := by
  change (record d.unsigned.fields).IsExact
  apply isExact_record rfl
  have hspan : ∀ v, (d.span.map Span.unsigned).map Span.toJson = some v → v.IsExact := by
    intro v hv
    obtain ⟨s', hs', rfl⟩ := Option.map_eq_some_iff.mp hv
    obtain ⟨s, hs, rfl⟩ := Option.map_eq_some_iff.mp hs'
    exact isExact_span (safe_of_span hd hs)
  have hindex : ∀ v, (d.index.map Number.unsigned).map number = some v → v.IsExact := by
    intro v hv
    obtain ⟨y, hy, rfl⟩ := Option.map_eq_some_iff.mp hv
    obtain ⟨x, hx, rfl⟩ := Option.map_eq_some_iff.mp hy
    exact isExact_number (safe_of_index hd hx)
  have hstring {o : Option Text} : ∀ v, o.map string = some v → v.IsExact := by
    intro v hv
    obtain ⟨t, -, rfl⟩ := Option.map_eq_some_iff.mp hv
    apply IsExact.string
  simp only [Diagnostic.fields, List.forall_mem_cons]
  refine ⟨?_, ?_, hspan, hindex, hstring, by simp⟩
  · rintro _ ⟨⟩
    apply IsExact.string
  · rintro _ ⟨⟩
    apply IsExact.string

/-- The object of a safe diagnostic tells what the diagnostic does. -/
theorem isDiagnostic_diagnostic :
  d.unsigned.toJson.IsDiagnostic d
  := by
  have hnodup : (Fields.keys d.unsigned.fields).Nodup := by
    rw [Diagnostic.keys_fields]
    decide
  have hfield (key : Text) :
      d.unsigned.toJson.field? key = (Fields.get? d.unsigned.fields key).join :=
    field?_record hnodup key
  constructor
  · rw [hfield]
    rfl
  · rw [hfield]
    rfl
  · rw [hfield]
    change Option.Rel _ ((d.span.map Span.unsigned).map Span.toJson) _
    cases hs : d.span with
    | none => exact .none
    | some s => exact .some (isSpan_span (safe_of_span hd hs))
  · rw [hfield]
    change Option.Rel _ ((d.index.map Number.unsigned).map number) _
    cases hx : d.index with
    | none => exact .none
    | some x => exact .some (isInteger_number (safe_of_index hd hx))
  · rw [hfield]
    rfl
  · intro key hkey
    rw [← Diagnostic.keys_fields]
    exact mem_keys_of_field?_record hkey

end

end Json

/-! ### Texts of diagnostics -/

/-- A text that is one line. -/
def Text.IsOneLine (t : Text) : Prop := lineFeed ∉ t ∧ carriageReturn ∉ t

/-- An exact value is written on one line. -/
theorem Json.IsExact.isOneLine {v : Json} (h : v.IsExact) :
  v.compact.IsOneLine
  := by
  have hprintable := List.all_eq_true.mp h.isPrintable
  constructor
  · intro hmem
    cases hprintable _ hmem
  · intro hmem
    cases hprintable _ hmem

namespace Diagnostic

/-- A diagnostic is written like the one without negative zeros. -/
theorem render_unsigned (d : Diagnostic) :
  d.render false = d.unsigned.toJson.compact
  := (Json.compact_diagnostic_unsigned d).symm

/-- Diagnostics are written like those without negative zeros. -/
theorem renderAll_unsigned (ds : List Diagnostic) :
  renderAll false ds = (Json.array (ds.map fun d => d.unsigned.toJson)).compact
  := by
  have hitems : Json.compactItems (ds.map toJson)
      = Json.compactItems (ds.map fun d => d.unsigned.toJson) := by
    simp only [Json.compactItems_eq_intercalate, List.map_map, Function.comp_def,
      Json.compact_diagnostic_unsigned]
  change [0x5B] ++ Json.compactItems (ds.map toJson) ++ [0x5D] = _
  rw [hitems, Json.compact]

/-- Diagnostics whose places are safe integers can be read back from JSON.  The text of a list of
them is that of an array, with an object for each diagnostic that has the fields of the diagnostic
and no others, so that it tells the diagnostic but for the sign of zero.  The text of each diagnostic
by itself is that of such an object.  None of these texts has a line feed or a carriage return. -/
theorem render_reads_back {ds : List Diagnostic} (h : ∀ d ∈ ds, d.IsSafe) :
  (∃ items, Json.parse? (renderAll false ds) = some (.array items)
    ∧ List.Forall₂ Json.IsDiagnostic items ds
    ∧ ∀ ds', List.Forall₂ Json.IsDiagnostic items ds' → ds'.map unsigned = ds.map unsigned)
  ∧ (renderAll false ds).IsOneLine
  ∧ ∀ d ∈ ds, (∃ v, Json.parse? (d.render false) = some v ∧ v.IsDiagnostic d
      ∧ ∀ d', v.IsDiagnostic d' → d'.unsigned = d.unsigned)
    ∧ (d.render false).IsOneLine
  := by
  have hexact : ∀ v ∈ ds.map fun d => d.unsigned.toJson, v.IsExact := by
    intro v hv
    obtain ⟨d, hd, rfl⟩ := List.mem_map.mp hv
    exact Json.isExact_diagnostic (h d hd)
  have hitems : List.Forall₂ Json.IsDiagnostic (ds.map fun d => d.unsigned.toJson) ds := by
    rw [List.forall₂_map_left_iff, List.forall₂_same]
    intro d hd
    exact Json.isDiagnostic_diagnostic (h d hd)
  rw [renderAll_unsigned]
  have harray := Json.IsExact.array hexact
  refine ⟨⟨_, harray.parse?, hitems, ?_⟩, harray.isOneLine, ?_⟩
  · intro ds' hds'
    exact Json.map_unsigned_eq_of_forall₂ hds' hitems
  · intro d hd
    have hvalue := Json.isDiagnostic_diagnostic (h d hd)
    rw [render_unsigned]
    refine ⟨⟨_, (Json.isExact_diagnostic (h d hd)).parse?, hvalue, ?_⟩,
      (Json.isExact_diagnostic (h d hd)).isOneLine⟩
    intro d' hd'
    exact hd'.unsigned_eq hvalue

/-- Diagnostics with a quote, a line feed, a backslash, a control, a line separator and lone
surrogates in their texts, an empty hint, and a negative zero. -/
theorem render_reads_back_odd :
  ∃ ds items, ds = [
      ⟨"E_LEX", [0x22, 0x0A, 0x5C, 0x00, 0x2028, 0xD800],
        some ⟨[0xDC00], .int 1, .int 2, .int 1, .int 3⟩, none, some []⟩,
      ⟨[], [0x0D], none, some .negativeZero, none⟩]
    ∧ (∀ d ∈ ds, d.IsSafe)
    ∧ Json.parse? (renderAll false ds) = some (.array items)
    ∧ List.Forall₂ Json.IsDiagnostic items ds
  := by
  have hsafe : ∀ d ∈ ([
      ⟨"E_LEX", [0x22, 0x0A, 0x5C, 0x00, 0x2028, 0xD800],
        some ⟨[0xDC00], .int 1, .int 2, .int 1, .int 3⟩, none, some []⟩,
      ⟨[], [0x0D], none, some .negativeZero, none⟩] : List Diagnostic), d.IsSafe := by
    simp [IsSafe, numbers, Span.numbers, Number.toSafeInt?, Number.toInt?, Number.maxSafe]
  obtain ⟨⟨items, hread, hitems, -⟩, -⟩ := render_reads_back hsafe
  exact ⟨_, items, rfl, hsafe, hread, hitems⟩

end Diagnostic

end StackMachine
