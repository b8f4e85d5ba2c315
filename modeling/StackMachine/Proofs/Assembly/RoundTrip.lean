import StackMachine.Proofs.Assembly.Encoding

/-!
# Listings assemble to their programs

The labels of a listing are defined once each, at the positions that they name, or at the
end for targets past it.  So a listing assembles, to its program if no jump leads past the
end.
-/

namespace StackMachine

namespace Assembly

/-! ### Tables of labels -/

/-- The definitions of the labels of positions, at places that depend on the position. -/
def tableOf (place : Nat → Nat) (names : List Nat) : List Definition :=
  names.map fun t => (labelToken t, place t)

theorem tableOf_append (place : Nat → Nat) (names names' : List Nat) :
  tableOf place (names ++ names') = tableOf place names ++ tableOf place names'
  := List.map_append

/-- A label that is defined names its place. -/
theorem lookup?_tableOf (place : Nat → Nat) {names : List Nat} {t : Nat} (ht : t ∈ names) :
  lookup? (tableOf place names) (Code.label t) = some (place t)
  := by
  induction names with
  | nil => cases ht
  | cons u names ih =>
    rw [lookup?, tableOf, List.map_cons]
    by_cases h : u = t
    · rw [List.find?_cons_of_pos, h]
      · rfl
      · apply decide_eq_true (congrArg Code.label h)
    · rw [List.find?_cons_of_neg]
      · apply ih
        apply (List.mem_cons.mp ht).resolve_left (Ne.symm h)
      · apply mt of_decide_eq_true
        apply mt Code.label_injective h

/-- Labels that are defined once each are not defined twice. -/
theorem duplicates_tableOf (place : Nat → Nat) {names : List Nat} (hnodup : names.Nodup)
    {seen : List Text} (hseen : ∀ t ∈ names, Code.label t ∉ seen) :
  duplicates seen (tableOf place names) = []
  := by
  induction names generalizing seen with
  | nil => rfl
  | cons t names ih =>
    obtain ⟨ht, hnodup⟩ := List.nodup_cons.mp hnodup
    have hfirst := hseen t List.mem_cons_self
    rw [tableOf, List.map_cons, duplicates]
    change (if seen.contains (Code.label t) then _ else _) = _
    rw [if_neg (mt List.contains_iff_mem.mp hfirst)]
    apply ih hnodup
    intro u hu h
    rcases List.mem_cons.mp h with h | h
    · rw [Code.label_injective h] at hu
      apply ht hu
    · apply hseen u (List.mem_cons_of_mem t hu) h

/-! ### Lines of code -/

/-- The labels before the instructions of code are defined at the positions that they name,
and what comes after the code is defined after it. -/
theorem definitions_linesFrom (isLabelled : Nat → Bool) (code : Code) (n : Nat)
    (more : List Line) :
  definitions n (linesFrom isLabelled n code ++ more)
    = tableOf id ((List.range' n code.length).filter isLabelled)
      ++ definitions (n + code.length) more
  := by
  induction code generalizing n with
  | nil => rfl
  | cons i code ih =>
    have hi : definitions n (instructionLine i :: (linesFrom isLabelled (n + 1) code ++ more))
        = definitions (n + 1) (linesFrom isLabelled (n + 1) code ++ more) := rfl
    have hlabel (lines : List Line) : definitions n (labelsLine [n] :: lines)
        = (labelToken n, n) :: definitions n lines := rfl
    rw [linesFrom, List.length_cons, List.range'_succ, List.filter_cons,
      Nat.add_comm code.length, ← Nat.add_assoc]
    split
    · rw [List.cons_append, List.cons_append, hlabel, hi, ih]
      rfl
    · rw [List.cons_append, hi, ih]

theorem definitions_lastLines (n : Nat) (labels : List Nat) :
  definitions n (lastLines labels) = tableOf (fun _ => n) labels
  := by
  cases labels with
  | nil => rfl
  | cons t labels =>
    rw [lastLines, if_neg (List.cons_ne_nil _ _), definitions, definitions, List.append_nil,
      labelsLine, List.map_map]
    rfl

theorem statements_linesFrom (isLabelled : Nat → Bool) (code : Code) (n : Nat) :
  (linesFrom isLabelled n code).filterMap Line.statement = code.map statementOf
  := by
  induction code generalizing n with
  | nil => rfl
  | cons i code ih =>
    rw [linesFrom, List.map_cons, ← ih (n + 1)]
    split <;> rfl

theorem statements_lastLines (labels : List Nat) :
  (lastLines labels).filterMap Line.statement = []
  := by
  rw [lastLines]
  split <;> rfl

/-! ### Encoding -/

/-- The instruction of a listing is encoded as it is, with its target brought down to the
end. -/
theorem encode_statementOf {table : List Definition} {i : Instruction Nat} {place : Nat → Nat}
    (hi : i.IsWellFormed)
    (htable : ∀ t, i.target? = some t → lookup? table (Code.label t) = some (place t))
    (hplace : ∀ t, i.target? = some t → place t ≤ Number.maxSafe) :
  encode table (statementOf i) = .ok (i.map place)
  := by
  apply encode_eq_ok_iff.mpr
  cases i with
  | loadc value =>
    refine ⟨rfl, .some (resolve_ofInt hi rfl table), ?_⟩
    rintro _ ⟨⟩
  | jump target | jumpz target =>
    have hlookup : lookup? table (labelToken target).image = some (place target) :=
      htable target rfl
    refine ⟨rfl, .some ?_, ?_⟩
    · simp only [resolve, hlookup]
    · rintro _ ⟨⟩
      exact hplace target rfl
  | load | store | pop | new | halt | binary | unary =>
    refine ⟨rfl, .none, ?_⟩
    rintro _ ⟨⟩

/-- Instructions that are all encoded are the code of their lines. -/
theorem encodeLines_eq_ok {lines : List Line} {code : Code}
    (hduplicates : duplicates [] (definitions 0 lines) = [])
    (hcode : encodeAll lines = code.map .ok) :
  encodeLines lines = .ok code
  := by
  have hproblems : problems (encodeAll lines) = [] := by
    rw [hcode, problems, List.filterMap_map]
    apply List.filterMap_eq_nil_iff.mpr
    intro i _
    rfl
  rw [encodeLines, hduplicates, hproblems]
  change Except.ok ((encodeAll lines).filterMap Except.toOption) = _
  rw [hcode, List.filterMap_map]
  congr 1
  apply List.filterMap_some

/-! ### Round trips -/

theorem tableOf_congr {place place' : Nat → Nat} {names : List Nat}
    (h : ∀ t ∈ names, place t = place' t) :
  tableOf place names = tableOf place' names
  := by
  apply List.map_congr_left
  intro t ht
  rw [h t ht]

/-- The positions that are labelled in the listing of code: those of instructions, in order,
and those past its end. -/
def labelledPositions (code : Code) (ts : List Nat) : List Nat :=
  (List.range' 0 code.length).filter (fun n => n ∈ code.targets) ++ ts

section

variable {code : Code} {ts : List Nat} (hnodup : ts.Nodup)
  (hts : ∀ t, t ∈ ts ↔ t ∈ code.targets ∧ code.length ≤ t)

include hts in
/-- The labelled positions are the targets. -/
theorem mem_labelledPositions {t : Nat} :
  t ∈ labelledPositions code ts ↔ t ∈ code.targets
  := by
  rw [labelledPositions, List.mem_append, List.mem_filter, List.mem_range'_1, hts,
    decide_eq_true_eq]
  constructor
  · rintro (⟨-, ht⟩ | ⟨ht, -⟩)
    · apply ht
    · apply ht
  · intro ht
    by_cases h : t < code.length
    · left
      exact ⟨⟨Nat.zero_le t, by omega⟩, ht⟩
    · right
      exact ⟨ht, Nat.not_lt.mp h⟩

include hnodup hts in
theorem nodup_labelledPositions :
  (labelledPositions code ts).Nodup
  := by
  apply List.Nodup.append
  · apply List.Nodup.filter
    exact List.nodup_range'
  · apply hnodup
  · intro t ht ht'
    have hlt := List.mem_range'_1.mp (List.mem_of_mem_filter ht)
    have hle := ((hts t).mp ht').2
    omega

include hts in
/-- The definitions of a listing: every labelled position is defined there, or at the end if
it is past it. -/
theorem definitions_listing :
  definitions 0 (linesFrom (fun n => n ∈ code.targets) 0 code ++ lastLines ts)
    = tableOf (fun t => min t code.length) (labelledPositions code ts)
  := by
  rw [definitions_linesFrom, definitions_lastLines, labelledPositions, tableOf_append,
    Nat.zero_add]
  congr 1
  · apply tableOf_congr
    intro t ht
    have := List.mem_range'_1.mp (List.mem_of_mem_filter ht)
    simp only [id_eq]
    omega
  · apply tableOf_congr
    intro t ht
    have := ((hts t).mp ht).2
    omega

end

theorem statements_listing (code : Code) (ts : List Nat) :
  (linesFrom (fun n => n ∈ code.targets) 0 code ++ lastLines ts).filterMap Line.statement
    = code.map statementOf
  := by
  rw [List.filterMap_append, statements_linesFrom, statements_lastLines, List.append_nil]

section

variable {code : Code} {ts : List Nat} {texts : List Text}
  (hlines : List.Forall₂ IsLine texts
    (linesFrom (fun n => n ∈ code.targets) 0 code ++ lastLines ts))

include hlines in
/-- Without texts there is no code. -/
theorem eq_nil_of_texts (hempty : texts = []) :
  code = []
  := by
  have hstatements := statements_listing code ts
  rw [hempty] at hlines
  rw [List.forall₂_nil_left_iff.mp hlines] at hstatements
  exact List.map_eq_nil_iff.mp hstatements.symm

include hlines in
/-- Texts that are read as the lines of a listing scan as tokens of lines with the statements of
the code. -/
theorem exists_scans_texts :
  ∃ tokens lines, Scans (Text.join [Text.lineFeed] texts ++ [Text.lineFeed]) [] tokens
    ∧ Line.ofTokens tokens = .ok lines ∧ lines.filterMap Line.statement = code.map statementOf
  := by
  by_cases hempty : texts = []
  · -- without instructions the listing is one empty line
    rw [eq_nil_of_texts hlines hempty, hempty]
    exact ⟨_, _, scans_lineFeed [], rfl, rfl⟩
  · obtain ⟨tokens, hscans, hread⟩ := scans_lines hlines
    refine ⟨tokens, _, ?_, hread, statements_listing code ts⟩
    rw [join_append _ hempty]
    apply hscans

include hlines in
/-- Texts that are read as the lines of a listing assemble to its code, with every target past the
end brought down to the end. -/
theorem assemble_texts (hnodup : ts.Nodup) (hts : ∀ t, t ∈ ts ↔ t ∈ code.targets ∧ code.length ≤ t)
    (hcode : ∀ i ∈ code, i.IsWellFormed)
    (hplace : ∀ t ∈ code.targets, min t code.length ≤ Number.maxSafe) :
  assemble (Text.join [Text.lineFeed] texts ++ [Text.lineFeed])
    = .ok (code.map fun i => i.map fun t => min t code.length)
  := by
  by_cases hempty : texts = []
  · rw [eq_nil_of_texts hlines hempty, hempty]
    apply assemble_of_lines (List.Forall₂.cons (isLine_labels []) List.Forall₂.nil)
      (List.cons_ne_nil _ _) rfl
  · apply assemble_of_lines hlines hempty
    apply encodeLines_eq_ok
    · rw [definitions_listing hts]
      apply duplicates_tableOf _ (nodup_labelledPositions hnodup hts)
      rintro t _ ⟨⟩
    · rw [encodeAll, definitions_listing hts, statements_listing, List.map_map, List.map_map]
      apply List.map_congr_left
      intro i hi
      have htarget (t : Nat) (ht : i.target? = some t) : t ∈ code.targets :=
        Code.mem_targets.mpr ⟨i, hi, ht⟩
      apply encode_statementOf (hcode i hi)
      · intro t ht
        apply lookup?_tableOf
        apply (mem_labelledPositions hts).mpr (htarget t ht)
      · intro t ht
        apply hplace t (htarget t ht)

end

section

variable {code : Code} {f : Nat → Nat} (h : code.ListedBy f)

include h in
/-- The listing of code is read as lines with the statements of its instructions, in which each
jump leads to the position that names its target. -/
theorem exists_scans_listing :
  ∃ tokens lines, Scans (Program.listing code.toProgram) [] tokens
    ∧ Line.ofTokens tokens = .ok lines
    ∧ lines.filterMap Line.statement = (code.relabel f).map statementOf
  := by
  obtain ⟨ts, htrailing, -, hts⟩ := Program.trailing_toProgram code
  rw [listing_eq]
  apply exists_scans_texts
  apply forall₂_listedTexts h htrailing fun t ht => ((hts t).mp ht).1

include h in
/-- The listing of code assembles to the code, with every target past the end brought down to
the end, however the targets are named. -/
theorem assemble_listing_of_listedBy (hcode : ∀ i ∈ code, i.IsWellFormed)
    (hplace : ∀ t ∈ code.targets, min t code.length ≤ Number.maxSafe) :
  assemble (Program.listing code.toProgram)
    = .ok (code.map fun i => i.map fun t => min t code.length)
  := by
  obtain ⟨ts, htrailing, hnodup, hts⟩ := Program.trailing_toProgram code
  obtain ⟨hnodup', hts'⟩ := h.trailing hnodup hts
  have hlines := forall₂_listedTexts h htrailing fun t ht => ((hts t).mp ht).1
  have hwell : ∀ i ∈ code.relabel f, i.IsWellFormed := by
    intro i hi
    obtain ⟨j, hj, rfl⟩ := List.mem_map.mp hi
    apply Instruction.isWellFormed_map.mpr (hcode j hj)
  have hbound : ∀ t ∈ (code.relabel f).targets, min t (code.relabel f).length ≤ Number.maxSafe := by
    intro t ht
    rw [Code.targets_relabel] at ht
    obtain ⟨u, hu, rfl⟩ := List.mem_map.mp ht
    rw [Code.length_relabel, h.min_eq hu]
    apply hplace u hu
  rw [listing_eq, assemble_texts hlines hnodup' hts' hwell hbound, Code.length_relabel,
    Code.relabel, List.map_map]
  congr 1
  apply List.map_congr_left
  intro i hi
  rw [Function.comp_apply, Instruction.map_map]
  apply Instruction.map_congr
  intro t ht
  apply h.min_eq (Code.mem_targets.mpr ⟨i, hi, ht⟩)

end

/-- The listing of code assembles to the code, with every target past the end brought down to
the end. -/
theorem assemble_listing_toProgram {code : Code} (hcode : ∀ i ∈ code, i.IsWellFormed)
    (hsafe : ∀ t ∈ code.targets, t ≤ Number.maxSafe) :
  assemble (Program.listing code.toProgram)
    = .ok (code.map fun i => i.map fun t => min t code.length)
  := by
  apply assemble_listing_of_listedBy (Code.listedBy_id hsafe) hcode
  intro t ht
  apply Nat.le_trans (Nat.min_le_left _ _) (hsafe t ht)

theorem unsigned_unsigned (x : Number) :
  x.unsigned.unsigned = x.unsigned
  := by
  cases x <;> rfl

theorem toText_unsigned (x : Number) :
  x.unsigned.toText = x.toText
  := by
  cases x <;> rfl

theorem le_unsigned (x y : Number) :
  x.unsigned.le y = x.le y
  := by
  cases x with
  | negativeZero =>
    cases y with
    | infinity negative => cases negative <;> rfl
    | int | negativeZero | fraction | nan => rfl
  | int | fraction | infinity | nan => rfl

/-- The sign of zero is not seen in a listing. -/
theorem listing_map_unsigned (p : Program) :
  Program.listing (p.map (·.map Number.unsigned)) = p.listing
  := by
  have hoperation (i : Instruction Number) :
      Program.operation (i.map Number.unsigned) = Program.operation i := by
    cases i with
    | jump target => simp only [Program.operation, Instruction.map, Instruction.target?,
        Program.label, toText_unsigned, Instruction.opcode]
    | jumpz target => simp only [Program.operation, Instruction.map, Instruction.target?,
        Program.label, toText_unsigned, Instruction.opcode]
    | _ => rfl
  have htargets : Program.targets (p.map (·.map Number.unsigned)) = Program.targets p := by
    rw [Program.targets, Program.targets, List.filterMap_map]
    congr 1
    funext i
    rw [Function.comp_apply, Instruction.target?_map, Option.map_map]
    congr 1
    funext x
    apply unsigned_unsigned
  have hoperations : (p.map (·.map Number.unsigned)).map Program.operation
      = p.map Program.operation := by
    rw [List.map_map]
    apply List.map_congr_left
    intro i _
    apply hoperation
  simp only [Program.listing, Program.bodyLines, Program.trailing, htargets, hoperations,
    List.length_map]

/-- The listing of a program without structural faults in which no jump leads past the end
assembles to the program, in which negative zero as a target is 0.  Arrays have fewer than
`2 ^ 32` elements, so that the length of a program is always an exact number. -/
theorem assemble_listing {p : Program} (hp : checkStructure p.toData = some [])
    (htargets : ∀ i ∈ p, ∀ x, i.target? = some x → x.le (Number.ofNat p.length) = true)
    (hlength : p.length ≤ Number.maxSafe) :
  ∃ code : Code, assemble p.listing = .ok code
    ∧ code.toProgram = p.map fun i => i.map Number.unsigned
  := by
  obtain ⟨code, hcode, hwell⟩ := Program.exists_code hp
  have hlength' : code.length = p.length := by
    have := congrArg List.length hcode
    rw [Code.toProgram, List.length_map, List.length_map] at this
    apply this
  have hle : ∀ t ∈ code.targets, t ≤ p.length := by
    intro t ht
    obtain ⟨j, hj, htarget⟩ := Code.mem_targets.mp ht
    have hmem : j.map Number.ofNat ∈ code.toProgram := List.mem_map_of_mem hj
    rw [hcode] at hmem
    obtain ⟨i, hi, hij⟩ := List.mem_map.mp hmem
    have htarget' := congrArg Instruction.target? hij
    rw [Instruction.target?_map, Instruction.target?_map, htarget] at htarget'
    obtain ⟨x, hx, hxt⟩ := Option.map_eq_some_iff.mp htarget'
    have := htargets i hi x hx
    rw [← le_unsigned, hxt] at this
    apply Number.le_ofNat.mp this
  have hassemble := assemble_listing_toProgram hwell fun t ht =>
    Nat.le_trans (hle t ht) hlength
  rw [hcode, listing_map_unsigned] at hassemble
  have hsame : (code.map fun i => i.map fun t => min t code.length) = code := by
    apply Code.relabel_eq_self
    intro t ht
    apply Nat.min_eq_left
    rw [hlength']
    apply hle t ht
  rw [hsame] at hassemble
  exact ⟨code, hassemble, hcode⟩

/-- The round trip of a program with the least word, a jump past its last instruction and a
jump to negative zero. -/
theorem assemble_listing_ends :
  ∃ code : Code, assemble (Program.listing [.loadc Word.least, .jumpz (.int 4),
      .jumpz .negativeZero, .jump (.int 4)]) = .ok code
    ∧ code.toProgram = [.loadc Word.least, .jumpz (.int 4), .jumpz (.int 0), .jump (.int 4)]
  := by
  apply assemble_listing
  · rfl
  · simp [Instruction.target?, Number.le, Number.ofNat, Number.toRatio?]
  · decide

end Assembly

end StackMachine
