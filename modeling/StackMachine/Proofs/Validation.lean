import Mathlib.Tactic.Common
import StackMachine.Proofs.Diagnostics
import StackMachine.Proofs.Structure

/-!
# Validation

What the structural check asks of an untyped value does not depend on the other elements of the
program: an opcode, with a constant that is a word or a target that is a natural number where the
opcode has one.  Validation asks in addition that there are instructions, and that the targets are
below their number.  The diagnostics are about exactly the elements that do not meet this.  But
nothing is reported of a program with an element about which there is no message, because it would
show a value that has no text; and a program with a missing element is checked, but not validated.
-/

namespace StackMachine

/-! ### Values without a text -/

namespace Datum

/-- A value that has no text: a record with a field `toString` of its own, or a list with such an
item. -/
inductive LacksText : Datum → Prop where
  | record {fields : Fields Datum} (h : (Fields.get? fields "toString").isSome = true) :
      LacksText (.record fields)
  | list {items : List Datum} {d : Datum} (hd : d ∈ items) (h : LacksText d) :
      LacksText (.list items)

/-- A value that has no text has fields. -/
theorem LacksText.hasFields {d : Datum} (h : d.LacksText) :
  d.hasFields = true
  := by
  cases h <;> rfl

theorem lacksText_list_iff {items : List Datum} :
  (list items).LacksText ↔ ∃ d ∈ items, d.LacksText
  := by
  constructor
  · rintro (_ | ⟨hd, h⟩)
    exact ⟨_, hd, h⟩
  · rintro ⟨d, hd, h⟩
    exact .list hd h

mutual

/-- The values without a text are those of which there is none to show. -/
theorem toText?_eq_none_iff : ∀ d : Datum, d.toText? = none ↔ d.LacksText
  | .record fields => by
    rw [toText?, ite_eq_left_iff]
    constructor
    · intro h
      by_contra hlacks
      cases h fun hown => hlacks (.record hown)
    · rintro ⟨hown⟩ hnone
      contradiction
  | .list items => by
    rw [toText?, itemsText?_eq_none_iff items, lacksText_list_iff]
  | .absent | .null | .bool true | .bool false | .number _ | .integer _ | .string _ => by
    rw [toText?]
    constructor <;> rintro ⟨⟩

/-- Items have a text if each of them does. -/
theorem itemsText?_eq_none_iff :
    ∀ items : List Datum, itemsText? items = none ↔ ∃ d ∈ items, d.LacksText
  | [] => by simp [itemsText?]
  | [v] => by
    have hv := toText?_eq_none_iff v
    have hfields := LacksText.hasFields (d := v)
    rw [itemsText?]
    split
    · simp [hv]
    · next hnone => simpa using fun h => hnone (hfields h)
  | v :: w :: r => by
    have hv := toText?_eq_none_iff v
    have hrest := itemsText?_eq_none_iff (w :: r)
    have hfields := LacksText.hasFields (d := v)
    rw [itemsText?, List.exists_mem_cons_iff, ← hrest]
    split
    · rw [← hv]
      cases v.toText? <;> cases itemsText? (w :: r) <;> simp
    · next hnone =>
      have hv : ¬ v.LacksText := fun h => hnone (hfields h)
      cases itemsText? (w :: r) <;> simp [hv]

end

end Datum

/-! ### What is asked of an element -/

namespace Datum

/-- A value names an opcode that jumps. -/
def IsJump (d : Datum) : Prop := d.field "op" = .string "jump" ∨ d.field "op" = .string "jumpz"

/-- The target of a value is a number that is an integer in a range. -/
def LeadsInto (range : Int → Prop) (d : Datum) : Prop :=
  ∃ x n, d.field "target" = .number x ∧ x.toInt? = some n ∧ range n

/-- A value names an opcode; it holds a word if that is `loadc`, and a target in a range if that is
`jump` or `jumpz`.  Nothing else is asked of it. -/
structure IsSound (range : Int → Prop) (d : Datum) : Prop where
  opcode : ∃ o : Opcode, d.field "op" = .string o.mnemonic
  constant : d.field "op" = .string "loadc" → ∃ n, d.field "value" = .integer n ∧ Word.IsWord n
  target : d.IsJump → d.LeadsInto range

variable {d : Datum}

/-- A target that is a natural number and not one from a bound on is below the bound. -/
theorem isSound_below_iff {bound : Int} :
  d.IsSound (fun n => 0 ≤ n ∧ n < bound)
    ↔ d.IsSound (0 ≤ ·) ∧ ¬ (d.IsJump ∧ d.LeadsInto (bound ≤ ·))
  := by
  constructor
  · intro h
    constructor
    · use h.opcode, h.constant
      intro hjump
      obtain ⟨x, n, hx, hn, hrange⟩ := h.target hjump
      exact ⟨x, n, hx, hn, hrange.1⟩
    · rintro ⟨hjump, x, n, hx, hn, hbound⟩
      obtain ⟨y, m, hy, hm, hrange⟩ := h.target hjump
      rw [hx] at hy
      cases hy
      rw [hn] at hm
      cases hm
      exact absurd hrange.2 (Int.not_lt.mpr hbound)
  · rintro ⟨h, hbound⟩
    use h.opcode, h.constant
    intro hjump
    obtain ⟨x, n, hx, hn, hrange⟩ := h.target hjump
    refine ⟨x, n, hx, hn, hrange, ?_⟩
    by_contra hlt
    apply hbound ⟨hjump, x, n, hx, hn, Int.not_lt.mp hlt⟩

end Datum

namespace Instruction

variable {d : Datum} {i : Instruction Nat}

/-- A value in which an instruction is written names the opcode of the instruction only. -/
theorem IsWritten.opcode_eq (h : IsWritten d i) {o : Opcode}
    (ho : d.field "op" = .string o.mnemonic) :
  i.opcode = o
  := by
  rw [h.opcode] at ho
  injection ho with ho
  apply Opcode.mnemonic_injective ho

/-- What is asked of a value holds if an instruction is written in it. -/
theorem IsWritten.isSound (h : IsWritten d i) :
  d.IsSound (0 ≤ ·)
  := by
  constructor
  · exact ⟨i.opcode, h.opcode⟩
  · intro hop
    have hi := h.opcode_eq (o := .loadc) hop
    cases i <;> cases hi
    exact ⟨_, h.constant _ rfl, h.isWellFormed⟩
  · intro hjump
    have htarget : ∃ t, i.target? = some t := by
      rcases hjump with hop | hop
      · have hi := h.opcode_eq (o := .jump) hop
        cases i <;> cases hi
        exact ⟨_, rfl⟩
      · have hi := h.opcode_eq (o := .jumpz) hop
        cases i <;> cases hi
        exact ⟨_, rfl⟩
    obtain ⟨t, ht⟩ := htarget
    obtain ⟨x, hx, hindex⟩ := h.target t ht
    exact ⟨x, t, hx, Number.toIndex?_eq_some_iff.mp hindex, Int.natCast_nonneg t⟩

/-- An instruction without an immediate is written wherever its opcode is named. -/
theorem isWritten_of_immediate (hop : d.field "op" = .string i.opcode.mnemonic)
    (hnone : i.opcode.immediate = .none) :
  IsWritten d i
  := by
  constructor
  · exact hop
  · rintro _ rfl
    cases hnone
  · intro t ht
    cases i <;> cases ht <;> cases hnone
  · cases i <;> trivial

/-- An instruction is written in a value of which holds what is asked. -/
theorem exists_isWritten (h : d.IsSound (0 ≤ ·)) :
  ∃ i, IsWritten d i
  := by
  obtain ⟨o, ho⟩ := h.opcode
  have hjumps (hjump : d.IsJump) :
      ∃ (x : Number) (t : Nat), d.field "target" = .number x ∧ x.toIndex? = some t := by
    obtain ⟨x, n, hx, hn, hrange⟩ := h.target hjump
    obtain ⟨t, rfl⟩ := Int.eq_ofNat_of_zero_le hrange
    exact ⟨x, t, hx, Number.toIndex?_eq_some_iff.mpr hn⟩
  cases o with
  | loadc =>
    obtain ⟨n, hvalue, hword⟩ := h.constant ho
    use loadc n, ho
    · rintro _ ⟨⟩
      exact hvalue
    · rintro _ ⟨⟩
    · exact hword
  | jump =>
    obtain ⟨x, t, hx, ht⟩ := hjumps (.inl ho)
    use jump t, ho
    · rintro _ ⟨⟩
    · rintro _ ⟨⟩
      exact ⟨x, hx, ht⟩
    · trivial
  | jumpz =>
    obtain ⟨x, t, hx, ht⟩ := hjumps (.inr ho)
    use jumpz t, ho
    · rintro _ ⟨⟩
    · rintro _ ⟨⟩
      exact ⟨x, hx, ht⟩
    · trivial
  | load => exact ⟨load, isWritten_of_immediate ho rfl⟩
  | store => exact ⟨store, isWritten_of_immediate ho rfl⟩
  | pop => exact ⟨pop, isWritten_of_immediate ho rfl⟩
  | new => exact ⟨new, isWritten_of_immediate ho rfl⟩
  | halt => exact ⟨halt, isWritten_of_immediate ho rfl⟩
  | binary op => exact ⟨binary op, isWritten_of_immediate ho rfl⟩
  | unary op => exact ⟨unary op, isWritten_of_immediate ho rfl⟩

/-- An untyped value is an instruction exactly if what is asked of it holds. -/
theorem exists_ofDatum_iff :
  (∃ i, ofDatum d = .ok i) ↔ d.IsSound (0 ≤ ·)
  := by
  constructor
  · rintro ⟨i, hi⟩
    apply (isWritten_of_ofDatum hi).isSound
  · intro h
    obtain ⟨i, hi⟩ := exists_isWritten h
    exact ⟨i, hi.ofDatum⟩

end Instruction

/-! ### The structural check -/

section

variable {d : Datum}

theorem opcodeOfDatum_eq_none_iff :
  opcodeOfDatum d = .error none ↔ d.LacksText
  := by
  rw [← Datum.toText?_eq_none_iff]
  cases d with
  | string t =>
    rw [opcodeOfDatum, Datum.toText?]
    cases Opcode.ofMnemonic? t <;> constructor <;> rintro ⟨⟩
  | _ => simp [opcodeOfDatum]

theorem targetOfDatum_eq_none_iff {o : Opcode} :
  targetOfDatum o d = .error none ↔ d.LacksText
  := by
  rw [← Datum.toText?_eq_none_iff]
  cases d with
  | absent => constructor <;> rintro ⟨⟩
  | number x =>
    rw [targetOfDatum, Datum.toText?]
    cases x.toIndex? <;> constructor <;> rintro ⟨⟩
  | _ => simp [targetOfDatum]

theorem constantOfDatum_ne_none {o : Opcode} :
  constantOfDatum o d ≠ .error none
  := by
  rw [constantOfDatum.eq_def]
  split
  · split <;> rintro ⟨⟩
  · rintro ⟨⟩

theorem map_eq_error_iff {ε α β : Type} {f : α → β} {x : Except ε α} {e : ε} :
  f <$> x = .error e ↔ x = .error e
  := by
  cases x with
  | error e' =>
    constructor <;> rintro ⟨⟩ <;> rfl
  | ok a => constructor <;> rintro ⟨⟩

/-- No message can tell why a value is no instruction: it would show the opcode, or the target of a
jump, and that has no text. -/
def Datum.DefiesMessage (d : Datum) : Prop :=
  (d.field "op").LacksText ∨ d.IsJump ∧ (d.field "target").LacksText

theorem Instruction.ofDatum_eq_none_iff :
  ofDatum d = .error none ↔ d.DefiesMessage
  := by
  rw [ofDatum_eq, Datum.DefiesMessage, ← opcodeOfDatum_eq_none_iff]
  have hname {o : Opcode} (ho : opcodeOfDatum (d.field "op") = .ok o) (o' : Opcode) :
      d.field "op" = .string o'.mnemonic ↔ o = o' := by
    rw [opcodeOfDatum_eq_ok ho, Datum.string.injEq, Opcode.mnemonic_injective.eq_iff]
  have hjump {o : Opcode} (ho : opcodeOfDatum (d.field "op") = .ok o) :
      d.IsJump ↔ o = .jump ∨ o = .jumpz :=
    or_congr (hname ho .jump) (hname ho .jumpz)
  cases ho : opcodeOfDatum (d.field "op") with
  | error m =>
    have hno : ¬ d.IsJump := by
      rintro (hop | hop)
      · rw [hop] at ho
        cases ho.symm.trans (opcodeOfDatum_mnemonic .jump)
      · rw [hop] at ho
        cases ho.symm.trans (opcodeOfDatum_mnemonic .jumpz)
    simp [Except.bind, hno]
  | ok o =>
    rw [hjump ho]
    cases o with
    | loadc => simp [Except.bind, map_eq_error_iff, constantOfDatum_ne_none]
    | jump | jumpz => simp [Except.bind, map_eq_error_iff, targetOfDatum_eq_none_iff]
    | _ => simp [Except.bind]

end

/-- What is told to be wrong with a value as an instruction. -/
def Datum.malformation? (d : Datum) : Option Malformation :=
  match Instruction.ofDatum d with
  | .ok _ => none
  | .error m => m

theorem Datum.malformation?_eq_none_iff {d : Datum} (h : ¬ d.DefiesMessage) :
  d.malformation? = none ↔ d.IsSound (0 ≤ ·)
  := by
  rw [← Instruction.ofDatum_eq_none_iff] at h
  rw [← Instruction.exists_ofDatum_iff, malformation?]
  cases hd : Instruction.ofDatum d with
  | ok i => exact ⟨fun _ => ⟨i, rfl⟩, fun _ => rfl⟩
  | error m =>
    constructor
    · rintro rfl
      contradiction
    · rintro ⟨i, ⟨⟩⟩

/-- Nothing is reported exactly if there is no message about an element. -/
theorem checkStructure_eq_none_iff {data : List Datum} :
  checkStructure data = none ↔ ∃ d ∈ data, d.DefiesMessage
  := by
  rw [checkStructure, mapM_id_eq_none_iff, findings, List.mem_filterMap]
  constructor
  · rintro ⟨⟨d, i⟩, hd, h⟩
    refine ⟨d, List.fst_mem_of_mem_zipIdx hd, Instruction.ofDatum_eq_none_iff.mp ?_⟩
    simp only at h
    split at h
    · cases h
    · next m hm => rw [hm, Option.map_eq_none_iff.mp (Option.some.inj h)]
  · rintro ⟨d, hd, h⟩
    obtain ⟨i, hi, rfl⟩ := List.getElem_of_mem hd
    refine ⟨(data[i], i), List.mem_zipIdx_iff_getElem?.mpr (by simp), ?_⟩
    simp only [Instruction.ofDatum_eq_none_iff.mpr h, Option.map_none]

/-- What is reported about elements about which there are messages. -/
theorem checkStructure_eq_some {data : List Datum} (h : ∀ d ∈ data, ¬ d.DefiesMessage) :
  checkStructure data
    = some (data.zipIdx.filterMap fun p => p.1.malformation?.map (Malformation.diagnostic p.2))
  := by
  rw [checkStructure, mapM_id_eq_some_iff, findings, List.map_filterMap]
  apply List.filterMap_congr
  rintro ⟨d, i⟩ hd
  have hd := h d (List.fst_mem_of_mem_zipIdx hd)
  rw [← Instruction.ofDatum_eq_none_iff] at hd
  simp only [Datum.malformation?]
  cases hm : Instruction.ofDatum d with
  | ok i => rfl
  | error m =>
    cases m with
    | none => contradiction
    | some m => rfl

/-- The structural check finds something about each element that is not sound, and nothing about
the others, unless there is no message about one of them. -/
theorem checkStructure_cases (data : List Datum) :
  (checkStructure data = none ∧ ∃ d ∈ data, d.DefiesMessage)
  ∨ ∃ found indices, checkStructure data = some found ∧ (∀ d ∈ data, ¬ d.DefiesMessage)
    ∧ AreAbout found indices ∧ indices.Pairwise (· < ·)
    ∧ ∀ i, i ∈ indices ↔ ∃ d, data[i]? = some d ∧ ¬ d.IsSound (0 ≤ ·)
  := by
  by_cases h : ∃ d ∈ data, d.DefiesMessage
  · exact .inl ⟨checkStructure_eq_none_iff.mpr h, h⟩
  · right
    have h : ∀ d ∈ data, ¬ d.DefiesMessage := fun d hd hd' => h ⟨d, hd, hd'⟩
    have hindex (i : Nat) (m : Malformation) : (m.diagnostic i).index = some (.ofNat i) := rfl
    obtain ⟨indices, habout, hsorted, hindices⟩ :=
      exists_areAbout_filterMap Datum.malformation? hindex data
    refine ⟨_, indices, checkStructure_eq_some h, h, habout, hsorted, ?_⟩
    intro i
    rw [hindices]
    apply exists_congr
    intro d
    apply and_congr_right
    intro hd
    rw [Ne, Datum.malformation?_eq_none_iff (h d (List.mem_of_getElem? hd))]

/-! ### Jumps past the end -/

/-- The target of a value that jumps past the end of a program of some length. -/
def Datum.exit? (length : Nat) (d : Datum) : Option Number :=
  (jumpTarget? d).filter fun x => (Number.ofNat length).le x

theorem jumpTarget?_eq_some_iff {d : Datum} {x : Number} :
  jumpTarget? d = some x ↔ d.IsJump ∧ d.field "target" = .number x ∧ x.isInteger = true
  := by
  constructor
  · intro h
    rw [jumpTarget?.eq_def] at h
    split at h
    · next op y hop hy =>
      split at h
      · next hjump =>
        cases h
        rw [Datum.IsJump, hop]
        exact ⟨hjump.1.imp (congrArg _) (congrArg _), hy, hjump.2⟩
      · cases h
    · cases h
  · rintro ⟨hop | hop, hx, hinteger⟩
    · rw [jumpTarget?, hop, hx]
      exact if_pos ⟨.inl rfl, hinteger⟩
    · rw [jumpTarget?, hop, hx]
      exact if_pos ⟨.inr rfl, hinteger⟩

theorem Datum.exit?_ne_none_iff {length : Nat} {d : Datum} :
  d.exit? length ≠ none ↔ d.IsJump ∧ d.LeadsInto (length ≤ ·)
  := by
  rw [exit?, Option.ne_none_iff_exists']
  simp only [Option.filter_eq_some_iff, jumpTarget?_eq_some_iff]
  constructor
  · rintro ⟨x, ⟨hjump, hx, hinteger⟩, hle⟩
    obtain ⟨n, hn⟩ := Option.isSome_iff_exists.mp hinteger
    exact ⟨hjump, x, n, hx, hn, (Number.int_le_iff hn length).mp hle⟩
  · rintro ⟨hjump, x, n, hx, hn, hle⟩
    refine ⟨x, ⟨hjump, hx, ?_⟩, (Number.int_le_iff hn length).mpr hle⟩
    rw [Number.isInteger, hn]
    rfl

theorem checkJumps_eq (data : List Datum) :
  checkJumps data
    = data.zipIdx.filterMap fun p => (p.1.exit? data.length).map (jumpRange data.length p.2)
  := by
  apply List.filterMap_congr
  rintro ⟨d, i⟩ -
  simp only [Datum.exit?]
  cases jumpTarget? d with
  | none => rfl
  | some x =>
    simp only [Option.filter_some]
    split <;> rfl

/-- There is one diagnostic of a jump past the end for each element that jumps there. -/
theorem exists_areAbout_checkJumps (data : List Datum) :
  (∀ d ∈ checkJumps data, d.code = "E_JUMP_RANGE")
  ∧ ∃ indices, AreAbout (checkJumps data) indices ∧ indices.Pairwise (· < ·)
    ∧ ∀ i, i ∈ indices ↔
      ∃ d, data[i]? = some d ∧ d.IsJump ∧ d.LeadsInto (data.length ≤ ·)
  := by
  rw [checkJumps_eq]
  constructor
  · intro diagnostic h
    obtain ⟨p, -, h⟩ := List.mem_filterMap.mp h
    obtain ⟨x, -, rfl⟩ := Option.map_eq_some_iff.mp h
    rfl
  · simp only [← Datum.exit?_ne_none_iff]
    apply exists_areAbout_filterMap (Datum.exit? data.length) fun _ _ => rfl

theorem checkJumps_eq_nil_iff {data : List Datum} :
  checkJumps data = [] ↔ ∀ d ∈ data, d.exit? data.length = none
  := by
  rw [checkJumps_eq, List.filterMap_eq_nil_iff]
  constructor
  · intro h d hd
    obtain ⟨i, hi, rfl⟩ := List.getElem_of_mem hd
    apply Option.map_eq_none_iff.mp
    apply h (data[i], i) (List.mk_mem_zipIdx_iff_getElem?.mpr (List.getElem?_eq_getElem hi))
  · intro h p hp
    rw [h p.1 (List.fst_mem_of_mem_zipIdx hp)]
    rfl

/-! ### Validated programs -/

/-- A value in which something is found has fields. -/
theorem Datum.hasFields_of_field {d : Datum} (key : Text) (h : d.field key ≠ .absent) :
  d.hasFields = true
  := by
  cases d with
  | absent | null => contradiction
  | bool | number | integer | string | list | record => rfl

/-- A program is validated without faults exactly if no part of the validation finds any. -/
theorem validate_eq_ok_nil_iff {data : List Datum} :
  validate data = .ok []
    ↔ checkStructure data = some [] ∧ data ≠ [] ∧ ∀ d ∈ data, d.exit? data.length = none
  := by
  rw [← checkJumps_eq_nil_iff, validate]
  constructor
  · intro h
    split at h
    · cases h
    · next hfound =>
      split at h
      · injection h with h
        obtain ⟨h, hjumps⟩ := List.append_eq_nil_iff.mp h
        obtain ⟨hstructure, hempty⟩ := List.append_eq_nil_iff.mp h
        refine ⟨hstructure ▸ hfound, ?_, hjumps⟩
        rintro rfl
        cases hempty
      · cases h
  · rintro ⟨hstructure, hne, hjumps⟩
    have hfields : data.all Datum.hasFields = true := by
      rw [List.all_eq_true]
      intro d hd
      obtain ⟨i, hi⟩ := (checkStructure_eq_nil_iff data).mp hstructure d hd
      apply Datum.hasFields_of_field "op"
      rw [(Instruction.isWritten_of_ofDatum hi).opcode]
      rintro ⟨⟩
    rw [hstructure]
    simp only
    rw [if_pos hfields, hjumps, if_neg hne]
    rfl

/-- Validation accepts exactly the programs that are not empty and whose elements are sound, with
targets below their number.  The structural check reports each element at most once, in the order
of the elements, and it reports an element exactly if that is not sound for itself; but nothing is
reported of a program with an element about which there is no message. -/
theorem validate_accepts_iff (data : List Datum) :
  (validate data = .ok []
    ↔ data ≠ [] ∧ ∀ d ∈ data, d.IsSound (fun n => 0 ≤ n ∧ n < data.length))
  ∧ ((checkStructure data = none ∧ ∃ d ∈ data, d.DefiesMessage)
    ∨ ∃ found indices, checkStructure data = some found ∧ (∀ d ∈ data, ¬ d.DefiesMessage)
      ∧ AreAbout found indices ∧ indices.Pairwise (· < ·)
      ∧ ∀ i, i ∈ indices ↔ ∃ d, data[i]? = some d ∧ ¬ d.IsSound (0 ≤ ·))
  := by
  refine ⟨?_, checkStructure_cases data⟩
  simp only [validate_eq_ok_nil_iff, checkStructure_eq_nil_iff, Instruction.exists_ofDatum_iff,
    Datum.isSound_below_iff, ← Datum.exit?_ne_none_iff, not_not]
  constructor
  · rintro ⟨hsound, hne, hexit⟩
    exact ⟨hne, fun d hd => ⟨hsound d hd, hexit d hd⟩⟩
  · rintro ⟨hne, h⟩
    exact ⟨fun d hd => (h d hd).1, hne, fun d hd => (h d hd).2⟩

/-- A program whose one element is not sound, and which is neither checked nor validated: the
opcode is a record with a field `toString`. -/
theorem validate_accepts_iff_breaks_off :
  ¬ Datum.IsSound (0 ≤ ·) (.record [("op", .record [("toString", .null)])])
  ∧ checkStructure [.record [("op", .record [("toString", .null)])]] = none
  ∧ ∀ found, validate [.record [("op", .record [("toString", .null)])]] ≠ .ok found
  := by
  refine ⟨?_, rfl, ?_⟩
  · rintro ⟨⟨o, ⟨⟩⟩, -, -⟩
  · rintro found ⟨⟩

theorem all_hasFields_iff {data : List Datum} :
  data.all Datum.hasFields = true ↔ ∀ d ∈ data, d ≠ .absent ∧ d ≠ .null
  := by
  rw [List.all_eq_true]
  apply forall₂_congr
  intro d _
  cases d with
  | absent => simp [Datum.hasFields]
  | null => simp [Datum.hasFields]
  | bool | number | integer | string | list | record => simp [Datum.hasFields]

theorem not_all_hasFields_iff {data : List Datum} :
  ¬ data.all Datum.hasFields = true ↔ ∃ d ∈ data, d = .absent ∨ d = .null
  := by
  rw [all_hasFields_iff]
  push Not
  apply exists_congr
  intro d
  apply and_congr_right
  intro _
  tauto

/-- Validation fails first where the structural check does. -/
theorem validate_eq_noText_iff {data : List Datum} :
  validate data = .error .noText ↔ ∃ d ∈ data, d.DefiesMessage
  := by
  rw [← checkStructure_eq_none_iff, validate]
  cases checkStructure data with
  | none => exact ⟨fun _ => rfl, fun _ => rfl⟩
  | some found =>
    simp only
    constructor
    · split <;> rintro ⟨⟩
    · rintro ⟨⟩

/-- Validation fails at a missing element if the structural check does not. -/
theorem validate_eq_noFields_iff {data : List Datum} :
  validate data = .error .noFields
    ↔ (∀ d ∈ data, ¬ d.DefiesMessage) ∧ ∃ d ∈ data, d = .absent ∨ d = .null
  := by
  rw [← not_all_hasFields_iff, validate]
  rcases checkStructure_cases data with ⟨hnone, d, hd, hdefies⟩ | ⟨found, -, hfound, htold, -⟩
  · rw [hnone]
    constructor
    · rintro ⟨⟩
    · rintro ⟨htold, -⟩
      exact absurd hdefies (htold d hd)
  · rw [hfound]
    simp only
    constructor
    · split
      · rintro ⟨⟩
      · next hfields =>
        intro _
        exact ⟨htold, hfields⟩
    · rintro ⟨-, hfields⟩
      exact if_neg hfields

/-- Validation extends the structural check of a program about whose elements there are messages and
of which no element is missing: by one diagnostic if the program is empty, and by one for each jump
to an integer past the end, in the order of the elements.  It fails where the structural check does,
and if an element is missing, about which the structural check only reports. -/
theorem validate_extends (data : List Datum) :
  (validate data = .error .noText ↔ ∃ d ∈ data, d.DefiesMessage)
  ∧ (validate data = .error .noFields
    ↔ (∀ d ∈ data, ¬ d.DefiesMessage) ∧ ∃ d ∈ data, d = .absent ∨ d = .null)
  ∧ ((∀ d ∈ data, ¬ d.DefiesMessage) → (∀ d ∈ data, d ≠ .absent ∧ d ≠ .null) →
    ∃ found empty jumps, checkStructure data = some found
      ∧ validate data = .ok (found ++ empty ++ jumps)
      ∧ empty.map Diagnostic.code = (if data = [] then [Text.ofString "E_EMPTY"] else [])
      ∧ (∀ d ∈ jumps, d.code = "E_JUMP_RANGE")
      ∧ ∃ indices, AreAbout jumps indices ∧ indices.Pairwise (· < ·)
        ∧ ∀ i, i ∈ indices ↔
          ∃ d, data[i]? = some d ∧ d.IsJump ∧ d.LeadsInto (data.length ≤ ·))
  := by
  refine ⟨validate_eq_noText_iff, validate_eq_noFields_iff, ?_⟩
  intro htold hpresent
  obtain ⟨hcode, habout⟩ := exists_areAbout_checkJumps data
  refine ⟨_, if data = [] then [emptyProgram] else [], checkJumps data,
    checkStructure_eq_some htold, ?_, ?_, hcode, habout⟩
  · rw [validate, checkStructure_eq_some htold]
    simp only
    rw [if_pos (all_hasFields_iff.mpr hpresent)]
  · split <;> rfl

/-- A jump past the end is reported, and a jump to a fraction only by the structural check. -/
theorem validate_extends_jumps :
  ∃ jumps indices,
    validate [.record [("op", .string "jump"), ("target", .number (.int 7))],
        .record [("op", .string "jump"), ("target", .number (.fraction 15 1))]]
      = .ok ([(Malformation.noTarget "7.5").diagnostic 1] ++ jumps)
    ∧ AreAbout jumps indices ∧ 0 ∈ indices
  := by
  have htold : ∀ d ∈ [Datum.record [("op", .string "jump"), ("target", .number (.int 7))],
      .record [("op", .string "jump"), ("target", .number (.fraction 15 1))]],
      ¬ d.DefiesMessage := by
    intro d hd hdefies
    cases checkStructure_eq_none_iff.mpr ⟨d, hd, hdefies⟩
  obtain ⟨found, empty, jumps, hfound, hvalidate, hempty, -, indices, habout, -, hindices⟩ :=
    (validate_extends _).2.2 htold (by simp)
  refine ⟨jumps, indices, ?_, habout, ?_⟩
  · rw [hvalidate, List.map_eq_nil_iff.mp hempty, List.append_nil]
    cases hfound
    rfl
  · apply (hindices 0).mpr
    exact ⟨_, rfl, .inl rfl, _, 7, rfl, rfl, by decide⟩

/-- A program with a missing element is not validated, although the structural check reports the
element. -/
theorem validate_fails_missing :
  checkStructure [.record [("op", .string "halt")], .null]
      = some [(Malformation.unknownOpcode "undefined").diagnostic 1]
    ∧ ∀ diagnostics, validate [.record [("op", .string "halt")], .null] ≠ .ok diagnostics
  := by
  constructor
  · rfl
  · rintro diagnostics ⟨⟩

end StackMachine
