import StackMachine.Proofs.Assembly.Listing

/-!
# What is assembled

The code of a text that is assembled has an instruction for each statement of the text.  Its
constants are words and its jumps lead to exact numbers, whether they are written as numbers
or as labels.
-/

namespace StackMachine

namespace Assembly

/-! ### Labels -/

/-- A label names a number of statements that there are. -/
theorem le_of_mem_definitions {index : Nat} {lines : List Line} {d : Definition}
    (h : d ∈ definitions index lines) :
  d.2 ≤ index + (lines.filterMap Line.statement).length
  := by
  induction lines generalizing index with
  | nil => cases h
  | cons line lines ih =>
    rw [definitions] at h
    rw [List.filterMap_cons]
    rcases List.mem_append.mp h with h | h
    · obtain ⟨t, -, rfl⟩ := List.mem_map.mp h
      apply Nat.le_add_right
    · have hle := ih h
      cases hs : line.statement with
      | none =>
        rw [hs] at hle
        apply hle
      | some s =>
        rw [hs] at hle
        simp only [Option.isSome_some, if_true] at hle
        simp only [List.length_cons]
        omega

theorem le_of_lookup? {table : List Definition} {name : Text} {n bound : Nat}
    (htable : ∀ d ∈ table, d.2 ≤ bound) (h : lookup? table name = some n) :
  n ≤ bound
  := by
  obtain ⟨d, hd, rfl⟩ := Option.map_eq_some_iff.mp h
  apply htable d (List.mem_of_find?_eq_some hd)

/-! ### Statements -/

section

variable {table : List Definition} (htable : ∀ d ∈ table, d.2 ≤ Number.maxSafe)

include htable in
/-- What an operand denotes is a word. -/
theorem isWord_of_resolve {operand : Operand} {value : Int}
    (h : resolve table operand = .ok value) :
  Word.IsWord value
  := by
  cases operand with
  | label t =>
    rw [resolve] at h
    split at h
    · next n hn =>
      cases h
      have hle := le_of_lookup? htable hn
      rw [Number.maxSafe] at hle
      constructor
      · rw [Word.least]
        omega
      · rw [Word.greatest]
        omega
    · cases h
  | integer t =>
    rw [resolve] at h
    split at h
    · next hword =>
      cases h
      apply hword
    · cases h

theorem le_of_targetOf {token : Token} {value : Int} {t : Nat}
    (h : targetOf token value = .ok t) :
  t ≤ Number.maxSafe
  := by
  rw [targetOf] at h
  split at h
  · cases h
    omega
  · cases h

/-- A computation that goes on after another succeeds only if that does. -/
theorem bind_eq_ok {ε α β : Type} {x : Except ε α} {f : α → Except ε β} {b : β}
    (h : x >>= f = .ok b) :
  ∃ a, x = .ok a ∧ f a = .ok b
  := by
  cases x with
  | error e => cases h
  | ok a => exact ⟨a, rfl, h⟩

/-- An instruction that stands by itself has neither a constant nor a target. -/
theorem isWellFormed_of_ofNullary? {o : Opcode} {i : Instruction Nat}
    (h : Instruction.ofNullary? o = some i) :
  i.IsWellFormed ∧ i.target? = none
  := by
  cases o <;> cases h <;> exact ⟨trivial, rfl⟩

include htable in
/-- The instruction of a statement has a word as its constant and an exact number as its
target. -/
theorem isWellFormed_of_encode {s : Statement} {i : Instruction Nat}
    (h : encode table s = .ok i) :
  i.IsWellFormed ∧ ∀ t, i.target? = some t → t ≤ Number.maxSafe
  := by
  rw [encode] at h
  split at h
  · next hnullary _ =>
    cases h
    obtain ⟨hwell, hnone⟩ := isWellFormed_of_ofNullary? hnullary
    use hwell
    intro t ht
    rw [hnone] at ht
    cases ht
  · cases h
  · cases h
  · obtain ⟨value, hvalue, h⟩ := bind_eq_ok h
    split at h
    · cases h
      use isWord_of_resolve htable hvalue
      rintro u ⟨⟩
    · obtain ⟨t, ht, h⟩ := bind_eq_ok h
      cases h
      use trivial
      rintro u ⟨⟩
      apply le_of_targetOf ht
    · obtain ⟨t, ht, h⟩ := bind_eq_ok h
      cases h
      use trivial
      rintro u ⟨⟩
      apply le_of_targetOf ht

end

/-- What stands behind the name of an instruction. -/
def immediate? : Instruction Nat → Option Int
  | .loadc value => some value
  | .jump target => some target
  | .jumpz target => some target
  | _ => none

/-- A word denotes itself. -/
theorem resolve_ofInt {n : Int} (hn : Word.IsWord n) {t : Token} (ht : t.image = Text.ofInt n)
    (table : List Definition) :
  resolve table (.integer t) = .ok n
  := by
  simp only [resolve, ht, Text.toInt?_ofInt, Option.getD_some]
  exact if_pos hn

/-- A jump is encoded if its operand denotes a position that is an exact number. -/
theorem bind_targetOf_eq_ok_iff {token : Token} {value : Except Problem Int} {i : Instruction Nat}
    {instruction : Nat → Instruction Nat} :
  (value >>= fun v => targetOf token v >>= fun t => .ok (instruction t)) = .ok i
    ↔ ∃ t : Nat, i = instruction t ∧ value = .ok (t : Int) ∧ t ≤ Number.maxSafe
  := by
  constructor
  · intro h
    obtain ⟨v, rfl, hv⟩ := bind_eq_ok h
    change (targetOf token v >>= fun t => .ok (instruction t)) = .ok i at hv
    obtain ⟨t, ht, hi⟩ := bind_eq_ok hv
    cases hi
    refine ⟨t, rfl, ?_, le_of_targetOf ht⟩
    rw [targetOf] at ht
    split at ht
    · next hposition =>
      cases ht
      rw [Int.toNat_of_nonneg hposition.1]
    · cases ht
  · rintro ⟨t, rfl, rfl, ht⟩
    change (targetOf token t >>= fun t => .ok (instruction t)) = _
    rw [targetOf, if_pos (by omega)]
    rfl

/-- A statement is encoded as an instruction of its opcode whose immediate is what the operand
denotes. -/
theorem encode_eq_ok_iff {table : List Definition} {s : Statement} {i : Instruction Nat} :
  encode table s = .ok i
    ↔ i.opcode = s.opcode
      ∧ Option.Rel (fun o n => resolve table o = .ok n) s.operand (immediate? i)
      ∧ ∀ t, i.target? = some t → t ≤ Number.maxSafe
  := by
  obtain ⟨opcode, m, operand⟩ := s
  cases opcode with
  | loadc =>
    cases operand with
    | none =>
      constructor
      · rintro ⟨⟩
      · rintro ⟨hopcode, hrel, -⟩
        cases i <;> cases hopcode
        cases hrel
    | some o =>
      change (resolve table o >>= fun v => .ok (.loadc v)) = .ok i ↔ _
      constructor
      · intro h
        obtain ⟨v, hv, h⟩ := bind_eq_ok h
        cases h
        exact ⟨rfl, .some hv, nofun⟩
      · rintro ⟨hopcode, hrel, -⟩
        cases i <;> cases hopcode
        cases hrel with
        | some hv =>
          rw [hv]
          rfl
  | jump | jumpz =>
    cases operand with
    | none =>
      constructor
      · rintro ⟨⟩
      · rintro ⟨hopcode, hrel, -⟩
        cases i <;> cases hopcode
        cases hrel
    | some o =>
      refine bind_targetOf_eq_ok_iff.trans ?_
      constructor
      · rintro ⟨t, rfl, hv, ht⟩
        refine ⟨rfl, .some hv, ?_⟩
        rintro _ ⟨⟩
        exact ht
      · rintro ⟨hopcode, hrel, htarget⟩
        cases i <;> cases hopcode
        cases hrel with
        | some hv => exact ⟨_, rfl, hv, htarget _ rfl⟩
  | load | store | pop | new | halt | binary | unary =>
    cases operand with
    | none =>
      constructor
      · rintro ⟨⟩
        exact ⟨rfl, .none, nofun⟩
      · rintro ⟨hopcode, -, -⟩
        cases i <;> cases hopcode
        rfl
    | some o =>
      constructor
      · rintro ⟨⟩
      · rintro ⟨hopcode, hrel, -⟩
        cases i <;> cases hopcode
        cases hrel

/-! ### Texts -/

/-- Where nothing is wrong, everything is encoded. -/
theorem eq_map_ok_of_problems {α : Type} {results : List (Except Problem α)}
    (h : problems results = []) :
  results = (results.filterMap Except.toOption).map .ok
  := by
  induction results with
  | nil => rfl
  | cons r results ih =>
    cases r with
    | error e => cases h
    | ok a =>
      change Except.ok a :: results = .ok a :: (results.filterMap Except.toOption).map .ok
      rw [← ih h]

/-- Lines that are encoded are encoded one by one. -/
theorem encodeAll_of_encodeLines {lines : List Line} {code : Code}
    (h : encodeLines lines = .ok code) :
  encodeAll lines = code.map .ok
  := by
  rw [encodeLines] at h
  split at h
  · next hnone =>
    cases h
    apply eq_map_ok_of_problems (List.append_eq_nil_iff.mp hnone).2
  · cases h

/-- A text that is assembled has lines that are encoded. -/
theorem exists_lines_of_assemble {source : Text} {code : Code}
    (h : assemble source = .ok code) :
  ∃ lines, encodeAll lines = code.map .ok
  := by
  rw [assemble] at h
  split at h
  · split at h
    · next lines _ => exact ⟨lines, encodeAll_of_encodeLines h⟩
    · cases h
  · cases h

/-- The instructions of a text that is assembled have words as constants and exact numbers as
targets.  A label is the length of a part of the code, and no list has so many elements that
its length is not exact. -/
theorem isWellFormed_of_assemble {source : Text} {code : Code}
    (h : assemble source = .ok code) (hlength : code.length ≤ Number.maxSafe) :
  ∀ i ∈ code, i.IsWellFormed ∧ ∀ t, i.target? = some t → t ≤ Number.maxSafe
  := by
  obtain ⟨lines, hlines⟩ := exists_lines_of_assemble h
  have hcount : (lines.filterMap Line.statement).length = code.length := by
    have := congrArg List.length hlines
    rw [encodeAll, List.length_map, List.length_map] at this
    apply this
  intro i hi
  have hmem : Except.ok i ∈ encodeAll lines := by
    rw [hlines]
    apply List.mem_map_of_mem hi
  obtain ⟨s, -, hs⟩ := List.mem_map.mp hmem
  apply isWellFormed_of_encode _ hs
  intro d hd
  have := le_of_mem_definitions hd
  omega

end Assembly

end StackMachine
