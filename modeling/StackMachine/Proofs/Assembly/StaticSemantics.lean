import StackMachine.Proofs.Assembly.Sources

/-!
# Static semantics

What is wrong with a source that scans and parses is read off its lines: labels that are defined
again, and for each instruction the first rule that it breaks.  `findings` tells it without
encoding anything, and `Encodes` tells which instruction a line stands for.  The assembler
reports exactly the findings, and if there are none its code is what the lines encode.
-/

namespace StackMachine

namespace Assembly

/-! ### What is wrong -/

/-- The labels that lines define, in the order in which they are written. -/
def labels (lines : List Line) : List Token := lines.flatMap Line.labels

/-- The labels whose name has been defined earlier. -/
def repeated (ls : List Token) : List Token :=
  (ls.zipIdx.filter fun l => (ls.take l.2).any fun earlier => earlier.image = l.1.image).map
    Prod.fst

namespace Statement

/-- `loadc`, `jump` or `jumpz` without an operand, or another mnemonic with one. -/
def misusesOperand (s : Statement) : Bool :=
  if s.opcode = .loadc ∨ s.opcode = .jump ∨ s.opcode = .jumpz then s.operand.isNone
  else s.operand.isSome

/-- The operand is a label, and none of the labels has its name. -/
def isUnresolved (ls : List Token) (s : Statement) : Bool :=
  match s.operand with
  | some (.label t) => !ls.any fun l => l.image = t.image
  | _ => false

/-- The operand is an integer, and it is one of a set. -/
def hasInteger (P : Int → Bool) (s : Statement) : Bool :=
  match s.operand with
  | some (.integer t) => (Text.toInt? t.image).any P
  | _ => false

/-- The operand is an integer outside the range of words. -/
def exceedsWords (s : Statement) : Bool := s.hasInteger fun v => ¬ Word.IsWord v

/-- A jump whose operand is an integer that is negative or greater than `Number.maxSafe`. -/
def jumpsNowhere (s : Statement) : Bool :=
  (s.opcode = .jump ∨ s.opcode = .jumpz)
    && s.hasInteger fun v => v < 0 ∨ (Number.maxSafe : Int) < v

/-- The code of the first rule that an instruction breaks among labels. -/
def fault? (ls : List Token) (s : Statement) : Option Text :=
  if s.misusesOperand then some "E_OPERAND"
  else if s.isUnresolved ls then some "E_UNKNOWN_LABEL"
  else if s.exceedsWords then some "E_RANGE"
  else if s.jumpsNowhere then some "E_TARGET"
  else none

/-- The token that the fault of an instruction is about: its operand, or its mnemonic if it has
none. -/
def subject (s : Statement) : Token := (s.operand.map Operand.token).getD s.mnemonic

end Statement

/-- Everything that is wrong with lines, by its code and the token that it is about. -/
def findings (lines : List Line) : List (Text × Token) :=
  (repeated (labels lines)).map (Text.ofString "E_DUP_LABEL", ·)
    ++ (statements lines).filterMap fun s =>
      (s.fault? (labels lines)).map (·, s.subject)

/-! ### What is encoded -/

/-- A label is defined on a line that has a number of instructions before it. -/
def IsPlaced (lines : List Line) (name : Text) (n : Nat) : Prop :=
  ∃ before line after, lines = before ++ line :: after ∧ (∃ l ∈ line.labels, l.image = name)
    ∧ n = (statements before).length

/-- The integer for which an operand stands. -/
inductive Denotes (lines : List Line) : Operand → Int → Prop where
  | integer {t : Token} {v : Int} (h : Text.toInt? t.image = some v) :
      Denotes lines (.integer t) v
  | label {t : Token} {n : Nat} (h : IsPlaced lines t.image n) : Denotes lines (.label t) n

/-- An instruction that is written down: it has the opcode, and its constant or its target is
what the operand stands for. -/
structure Encodes (lines : List Line) (s : Statement) (i : Instruction Nat) : Prop where
  opcode : i.opcode = s.opcode
  constant : ∀ v, i = .loadc v → ∃ o, s.operand = some o ∧ Denotes lines o v
  target : ∀ t, i.target? = some t → ∃ o, s.operand = some o ∧ Denotes lines o t

/-! ### Labels -/

theorem labels_definitions (index : Nat) (lines : List Line) :
  (definitions index lines).map Prod.fst = labels lines
  := by
  induction lines generalizing index with
  | nil => rfl
  | cons line lines ih =>
    have hline : (line.labels.map (·, index)).map Prod.fst = line.labels := by
      rw [List.map_map]
      apply List.map_id
    rw [definitions, List.map_append, ih, hline]
    rfl

/-- The definitions that count as duplicates after some labels, which have the names seen. -/
theorem duplicates_eq {seen : List Text} (before : List Token)
    (hseen : ∀ name, seen.contains name = before.any fun l => l.image = name)
    (table : List Definition) :
  duplicates seen table
    = (((table.map Prod.fst).zipIdx before.length).filter fun l =>
        ((before ++ table.map Prod.fst).take l.2).any fun earlier => earlier.image = l.1.image).map
      fun l => .duplicateLabel l.1
  := by
  induction table generalizing seen before with
  | nil => rfl
  | cons d table ih =>
    obtain ⟨t, index⟩ := d
    have hbefore : before ++ t :: table.map Prod.fst = (before ++ [t]) ++ table.map Prod.fst := by
      rw [List.append_assoc]
      rfl
    have hnext (seen' : List Text)
        (hseen' : ∀ name, seen'.contains name = (before ++ [t]).any fun l => l.image = name) :
        duplicates seen' table
          = (((table.map Prod.fst).zipIdx (before.length + 1)).filter fun l =>
              ((before ++ t :: table.map Prod.fst).take l.2).any fun earlier =>
                earlier.image = l.1.image).map
            fun l => .duplicateLabel l.1 := by
      have h := ih (before ++ [t]) hseen'
      rw [List.length_append, List.length_singleton, ← hbefore] at h
      apply h
    rw [duplicates, List.map_cons, List.zipIdx_cons, List.filter_cons, List.take_left, hseen]
    split
    · next hdefined =>
      rw [List.map_cons, hnext]
      intro name
      rw [hseen, List.any_append]
      by_cases hname : t.image = name
      · rw [← hname, hdefined]
        rfl
      · simp [hname]
    · rw [hnext]
      intro name
      rw [List.contains_cons, hseen, List.any_append, Bool.or_comm]
      congr 1
      rw [List.any_cons, List.any_nil, Bool.or_false]
      by_cases hname : t.image = name
      · simp [hname]
      · simp [hname, Ne.symm hname]

/-- The definitions that are reported are the labels that are repeated. -/
theorem duplicates_definitions (lines : List Line) :
  duplicates [] (definitions 0 lines) = (repeated (labels lines)).map .duplicateLabel
  := by
  rw [duplicates_eq [] (fun _ => rfl), labels_definitions, repeated, List.map_map]
  rfl

theorem isPlaced_of_mem {index : Nat} {lines : List Line} {d : Definition}
    (h : d ∈ definitions index lines) :
  ∃ n, IsPlaced lines d.1.image n ∧ d.2 = index + n
  := by
  induction lines generalizing index with
  | nil => cases h
  | cons line lines ih =>
    rw [definitions] at h
    rcases List.mem_append.mp h with h | h
    · obtain ⟨t, ht, rfl⟩ := List.mem_map.mp h
      exact ⟨0, ⟨[], line, lines, rfl, ⟨t, ht, rfl⟩, rfl⟩, rfl⟩
    · obtain ⟨n, ⟨before, line', after, rfl, hlabel, rfl⟩, hindex⟩ := ih h
      refine ⟨_, ⟨line :: before, line', after, rfl, hlabel, rfl⟩, ?_⟩
      rw [hindex]
      conv_rhs => rw [statements, List.filterMap_cons]
      cases line.statement with
      | none => rfl
      | some s =>
        simp only [Option.isSome_some, if_true, List.length_cons, statements]
        omega

theorem IsPlaced.le {lines : List Line} {name : Text} {n : Nat} (h : IsPlaced lines name n) :
  n ≤ (statements lines).length
  := by
  obtain ⟨before, line, after, rfl, -, rfl⟩ := h
  rw [statements, statements, List.filterMap_append, List.length_append]
  apply Nat.le_add_right

/-- A label is looked up at a line that defines it, or no label has its name. -/
theorem lookup?_definitions (lines : List Line) (name : Text) :
  lookup? (definitions 0 lines) name = none
      ∧ ((labels lines).any fun l => l.image = name) = false
    ∨ ∃ n, lookup? (definitions 0 lines) name = some n
      ∧ ((labels lines).any fun l => l.image = name) = true ∧ IsPlaced lines name n
  := by
  rw [← labels_definitions 0, List.any_map]
  cases h : (definitions 0 lines).find? fun d => d.1.image = name with
  | none =>
    left
    constructor
    · rw [lookup?, h]
      rfl
    · apply List.any_eq_false.mpr
      apply List.find?_eq_none.mp h
  | some d =>
    right
    have hmem := List.mem_of_find?_eq_some h
    have hname := List.find?_some h
    obtain ⟨n, hplaced, hn⟩ := isPlaced_of_mem hmem
    rw [Nat.zero_add] at hn
    use n
    refine ⟨?_, ?_, ?_⟩
    · rw [lookup?, h, ← hn]
      rfl
    · apply List.any_eq_true.mpr ⟨d, hmem, hname⟩
    · rw [← of_decide_eq_true hname]
      apply hplaced

/-! ### Instructions -/

section

variable {lines : List Line} {s : Statement} {o : Operand}

/-- An operand is resolved to the integer for which it stands, unless it is a label that is not
defined or an integer that is no word. -/
theorem resolve_cases (hs : s.operand = some o)
    (hinteger : ∀ t, o = .integer t → ∃ v, Text.toInt? t.image = some v) :
  resolve (definitions 0 lines) o = .error (.unknownLabel o.token)
      ∧ s.isUnresolved (labels lines) = true
    ∨ resolve (definitions 0 lines) o = .error (.constantRange o.token)
      ∧ s.isUnresolved (labels lines) = false ∧ s.exceedsWords = true
    ∨ ∃ v, resolve (definitions 0 lines) o = .ok v ∧ Denotes lines o v
      ∧ s.isUnresolved (labels lines) = false ∧ s.exceedsWords = false
  := by
  cases o with
  | label t =>
    have hunresolved : s.isUnresolved (labels lines)
        = !(labels lines).any fun l => l.image = t.image := by
      rw [Statement.isUnresolved, hs]
    have hexceeds : s.exceedsWords = false := by
      rw [Statement.exceedsWords, Statement.hasInteger, hs]
    rw [hunresolved, resolve]
    rcases lookup?_definitions lines t.image with ⟨hnone, hany⟩ | ⟨n, hsome, hany, hplaced⟩
    · left
      rw [hnone, hany]
      exact ⟨rfl, rfl⟩
    · right
      right
      use n
      rw [hsome, hany]
      exact ⟨rfl, Denotes.label hplaced, rfl, hexceeds⟩
  | integer t =>
    obtain ⟨v, hv⟩ := hinteger t rfl
    have hunresolved : s.isUnresolved (labels lines) = false := by
      rw [Statement.isUnresolved, hs]
    have hexceeds : s.exceedsWords = decide (¬ Word.IsWord v) := by
      rw [Statement.exceedsWords, Statement.hasInteger, hs]
      simp only [hv]
      rfl
    rw [hunresolved, hexceeds, resolve, hv, Option.getD_some]
    right
    by_cases hword : Word.IsWord v
    · right
      use v
      rw [if_pos hword]
      exact ⟨rfl, Denotes.integer hv, rfl, decide_eq_false (not_not_intro hword)⟩
    · left
      rw [if_neg hword]
      exact ⟨rfl, rfl, decide_eq_true hword⟩

/-- A jump leads to the position for which its operand stands, unless that is an integer that is
no position. -/
theorem targetOf_cases (hs : s.operand = some o) (hjump : s.opcode = .jump ∨ s.opcode = .jumpz)
    (hlength : (statements lines).length ≤ Number.maxSafe) {v : Int} (hv : Denotes lines o v) :
  targetOf o.token v = .error (.noTarget v o.token) ∧ s.jumpsNowhere = true
    ∨ ∃ t : Nat, targetOf o.token v = .ok t ∧ v = t ∧ s.jumpsNowhere = false
  := by
  rw [Statement.jumpsNowhere, Statement.hasInteger, hs, decide_eq_true hjump, Bool.true_and]
  cases hv with
  | @label t n hplaced =>
    right
    have hle := hplaced.le
    refine ⟨n, ?_, rfl, rfl⟩
    rw [targetOf, if_pos (by omega)]
    rfl
  | @integer t v hv =>
    simp only [hv, Option.any_some]
    by_cases hposition : 0 ≤ v ∧ v ≤ Number.maxSafe
    · right
      refine ⟨v.toNat, ?_, (Int.toNat_of_nonneg hposition.1).symm, ?_⟩
      · rw [targetOf, if_pos hposition]
      · apply decide_eq_false
        omega
    · left
      constructor
      · rw [targetOf, if_neg hposition]
      · apply decide_eq_true
        omega

/-- What the encoding of an instruction comes to: a diagnostic with the code of the first rule
that it breaks, or the instruction if it breaks none. -/
inductive Judges (lines : List Line) (s : Statement) : Except Problem (Instruction Nat) → Prop where
  | faulty {p : Problem} (code : Text) (hfault : s.fault? (labels lines) = some code)
      (hdiagnostic : ∀ file, (p.diagnostic file).code = code
        ∧ (p.diagnostic file).span = some (s.subject.span file)) :
      Judges lines s (.error p)
  | encoded {i : Instruction Nat} (hfault : s.fault? (labels lines) = none)
      (hencodes : Encodes lines s i) :
      Judges lines s (.ok i)

/-- An instruction that takes an operand and has one does not misuse it. -/
theorem misusesOperand_eq_false (hs : s.operand = some o)
    (hopcode : s.opcode = .loadc ∨ s.opcode = .jump ∨ s.opcode = .jumpz) :
  s.misusesOperand = false
  := by
  rw [Statement.misusesOperand, if_pos hopcode, hs]
  rfl

/-- An instruction is judged by its operand if that is no integer for which it stands, and
otherwise by what comes next. -/
theorem judges_resolve (hs : s.operand = some o)
    (hopcode : s.opcode = .loadc ∨ s.opcode = .jump ∨ s.opcode = .jumpz)
    (hinteger : ∀ t, s.operand = some (.integer t) → ∃ v, Text.toInt? t.image = some v)
    {next : Int → Except Problem (Instruction Nat)}
    (hnext : ∀ v, Denotes lines o v → s.isUnresolved (labels lines) = false →
      s.exceedsWords = false → Judges lines s (next v)) :
  Judges lines s ((resolve (definitions 0 lines) o).bind next)
  := by
  have hmisuses := misusesOperand_eq_false hs hopcode
  have hsubject : s.subject = o.token := by
    rw [Statement.subject, hs]
    rfl
  have hinteger' (t : Token) (ht : o = .integer t) : ∃ v, Text.toInt? t.image = some v := by
    apply hinteger t
    rw [hs, ht]
  rcases resolve_cases hs hinteger' with ⟨h, hlabel⟩ | ⟨h, hlabel, hrange⟩ | ⟨v, h, hv, hlabel, hrange⟩
  · rw [h]
    apply Judges.faulty "E_UNKNOWN_LABEL"
    · rw [Statement.fault?, hmisuses, hlabel]
      rfl
    · intro file
      rw [hsubject]
      exact ⟨rfl, rfl⟩
  · rw [h]
    apply Judges.faulty "E_RANGE"
    · rw [Statement.fault?, hmisuses, hlabel, hrange]
      rfl
    · intro file
      rw [hsubject]
      exact ⟨rfl, rfl⟩
  · rw [h]
    apply hnext v hv hlabel hrange

/-- A jump whose operand stands for an integer is judged by whether that is a position. -/
theorem judges_targetOf (hlength : (statements lines).length ≤ Number.maxSafe)
    (hs : s.operand = some o) (hjump : s.opcode = .jump ∨ s.opcode = .jumpz) {v : Int}
    (hv : Denotes lines o v) (hlabel : s.isUnresolved (labels lines) = false)
    (hrange : s.exceedsWords = false) {instruction : Nat → Instruction Nat}
    (hopcode : ∀ t, (instruction t).opcode = s.opcode)
    (htarget : ∀ t, (instruction t).target? = some t) :
  Judges lines s ((targetOf o.token v).bind fun t => .ok (instruction t))
  := by
  have hmisuses := misusesOperand_eq_false hs (.inr hjump)
  rcases targetOf_cases hs hjump hlength hv with ⟨h, hnowhere⟩ | ⟨t, h, rfl, hnowhere⟩
  · rw [h]
    apply Judges.faulty "E_TARGET"
    · rw [Statement.fault?, hmisuses, hlabel, hrange, hnowhere]
      rfl
    · intro file
      rw [Statement.subject, hs]
      exact ⟨rfl, rfl⟩
  · rw [h]
    apply Judges.encoded
    · rw [Statement.fault?, hmisuses, hlabel, hrange, hnowhere]
      rfl
    · constructor
      · apply hopcode
      · intro value hvalue
        have := htarget t
        rw [hvalue] at this
        cases this
      · intro u hu
        rw [htarget] at hu
        cases hu
        exact ⟨o, hs, hv⟩

/-- The encoding of an instruction comes to nothing else. -/
theorem judges_encode (hlength : (statements lines).length ≤ Number.maxSafe)
    (hinteger : ∀ t, s.operand = some (.integer t) → ∃ v, Text.toInt? t.image = some v) :
  Judges lines s (encode (definitions 0 lines) s)
  := by
  obtain ⟨opcode, m, operand⟩ := s
  cases opcode with
  | loadc =>
    cases operand with
    | none => exact Judges.faulty _ rfl fun _ => ⟨rfl, rfl⟩
    | some o =>
      change Judges _ _ ((resolve (definitions 0 lines) o).bind fun v => .ok (.loadc v))
      apply judges_resolve rfl (.inl rfl) hinteger
      intro v hv hlabel hrange
      apply Judges.encoded
      · rw [Statement.fault?, hlabel, hrange]
        rfl
      · constructor
        · rfl
        · rintro _ ⟨⟩
          exact ⟨o, rfl, hv⟩
        · rintro _ ⟨⟩
  | jump =>
    cases operand with
    | none => exact Judges.faulty _ rfl fun _ => ⟨rfl, rfl⟩
    | some o =>
      change Judges _ _ ((resolve (definitions 0 lines) o).bind fun v =>
        (targetOf o.token v).bind fun t => .ok (.jump t))
      apply judges_resolve rfl (.inr (.inl rfl)) hinteger
      intro v hv hlabel hrange
      apply judges_targetOf hlength rfl (.inl rfl) hv hlabel hrange
      · exact fun _ => rfl
      · exact fun _ => rfl
  | jumpz =>
    cases operand with
    | none => exact Judges.faulty _ rfl fun _ => ⟨rfl, rfl⟩
    | some o =>
      change Judges _ _ ((resolve (definitions 0 lines) o).bind fun v =>
        (targetOf o.token v).bind fun t => .ok (.jumpz t))
      apply judges_resolve rfl (.inr (.inr rfl)) hinteger
      intro v hv hlabel hrange
      apply judges_targetOf hlength rfl (.inr rfl) hv hlabel hrange
      · exact fun _ => rfl
      · exact fun _ => rfl
  | _ =>
    cases operand with
    | none =>
      apply Judges.encoded rfl
      constructor
      · rfl
      · rintro _ ⟨⟩
      · rintro _ ⟨⟩
    | some o => exact Judges.faulty _ rfl fun _ => ⟨rfl, rfl⟩

end

/-! ### Sources -/

/-- What a diagnostic reports: its code and the stretch of the file that it is about. -/
def report (d : Diagnostic) : Text × Option Span := (d.code, d.span)

/-- Instructions that are judged by their encodings have the problems that are found, and where
there are none they are encoded. -/
theorem of_judges {lines : List Line} {ss : List Statement}
    {results : List (Except Problem (Instruction Nat))}
    (h : List.Forall₂ (Judges lines) ss results) (file : Text) :
  ((problems results).map fun p => report (p.diagnostic file))
      = (ss.filterMap fun s => (s.fault? (labels lines)).map (·, s.subject)).map
        (fun f => (f.1, some (f.2.span file)))
    ∧ (problems results = [] →
      List.Forall₂ (Encodes lines) ss (results.filterMap Except.toOption))
  := by
  induction h with
  | nil => exact ⟨rfl, fun _ => List.Forall₂.nil⟩
  | cons hs _ ih =>
    obtain ⟨hreports, hencodes⟩ := ih
    cases hs with
    | @faulty p code hfault hdiagnostic =>
      constructor
      · rw [List.filterMap_cons, hfault]
        change report (p.diagnostic file) :: (problems _).map _ = _
        rw [hreports, report, (hdiagnostic file).1, (hdiagnostic file).2]
        rfl
      · rintro ⟨⟩
    | encoded hfault hencoded =>
      constructor
      · rw [List.filterMap_cons, hfault]
        apply hreports
      · intro hnone
        apply List.Forall₂.cons hencoded (hencodes hnone)

variable {source : Text} {lines : List Line}

/-- The assembler reports exactly what is wrong with a source that scans and parses: a diagnostic
for each label that is defined again, and then one for each instruction that breaks a rule, with
the code of the first rule that it breaks.  It yields code if and only if nothing is wrong, with
an instruction for each that is written down; a label stands for the number of instructions on
the lines before it.  No text has more than `2 ^ 53 - 1` units. -/
theorem assembleFile_reports (h : Reads source lines) (hlength : source.length ≤ Number.maxSafe)
    (file : Text) :
  (findings lines ≠ [] →
      ∃ ds, assembleFile source file = .error ds
        ∧ ds.map report = (findings lines).map fun f => (f.1, some (f.2.span file)))
    ∧ (findings lines = [] →
      ∃ code, assembleFile source file = .ok code
        ∧ List.Forall₂ (Encodes lines) (statements lines) code)
  := by
  have hcount : (statements lines).length ≤ Number.maxSafe := by
    have := h.length_statements
    omega
  have hjudges : List.Forall₂ (Judges lines) (statements lines) (encodeAll lines) := by
    rw [encodeAll, List.forall₂_map_right_iff]
    apply List.forall₂_same.mpr
    intro s hs
    apply judges_encode hcount (h.exists_toInt? s hs)
  obtain ⟨hreports, hencodes⟩ := of_judges hjudges file
  have hall : (duplicates [] (definitions 0 lines) ++ problems (encodeAll lines)).map
      (fun p => report (p.diagnostic file))
        = (findings lines).map fun f => (f.1, some (f.2.span file)) := by
    rw [List.map_append, hreports, duplicates_definitions, findings, List.map_append,
      List.map_map, List.map_map]
    rfl
  rw [assembleFile, h.assemble, encodeLines]
  cases hproblems : duplicates [] (definitions 0 lines) ++ problems (encodeAll lines) with
  | nil =>
    rw [hproblems] at hall
    have hnone := List.map_eq_nil_iff.mp hall.symm
    constructor
    · intro hne
      cases hne hnone
    · intro _
      exact ⟨_, rfl, hencodes (List.append_eq_nil_iff.mp hproblems).2⟩
  | cons p ps =>
    rw [hproblems] at hall
    constructor
    · intro _
      refine ⟨_, rfl, ?_⟩
      rw [List.map_map]
      apply hall
    · intro hnone
      rw [hnone] at hall
      cases hall

/-- Two instructions, of which the first stands behind two labels of one name and jumps to a label
that is not defined, and the second has an operand that it does not take. -/
theorem assembleFile_reports_three :
  ∃ lines ds, Reads "a: a: jump b\nadd 1" lines
    ∧ assembleFile "a: a: jump b\nadd 1" "f" = .error ds
    ∧ ds.map report = [
        (Text.ofString "E_DUP_LABEL", some ⟨"f", .ofNat 1, .ofNat 4, .ofNat 1, .ofNat 5⟩),
        (Text.ofString "E_UNKNOWN_LABEL", some ⟨"f", .ofNat 1, .ofNat 12, .ofNat 1, .ofNat 13⟩),
        (Text.ofString "E_OPERAND", some ⟨"f", .ofNat 2, .ofNat 5, .ofNat 2, .ofNat 6⟩)]
  := by
  have hread : Reads "a: a: jump b\nadd 1" [
      ⟨[⟨.identifier, "a", ⟨0, 1, 1⟩⟩, ⟨.identifier, "a", ⟨3, 1, 4⟩⟩],
        some ⟨.jump, ⟨.mnemonic .jump, "jump", ⟨6, 1, 7⟩⟩,
          some (.label ⟨.identifier, "b", ⟨11, 1, 12⟩⟩)⟩⟩,
      ⟨[], some ⟨.binary .add, ⟨.mnemonic (.binary .add), "add", ⟨13, 2, 1⟩⟩,
          some (.integer ⟨.integer, "1", ⟨17, 2, 5⟩⟩)⟩⟩] := by
    constructor
    · decide +kernel
    · decide +kernel
  obtain ⟨ds, hds, hreports⟩ := (assembleFile_reports hread (by decide) "f").1 (by decide +kernel)
  refine ⟨_, ds, hread, hds, ?_⟩
  rw [hreports]
  decide +kernel

end Assembly

end StackMachine
