import Mathlib.Data.List.Enum
import StackMachine.ProgramFile
import StackMachine.Proofs.Diagnostics
import StackMachine.Proofs.Fields
import StackMachine.Proofs.Structure
import StackMachine.Proofs.Text.Numeral

/-!
# Programs in JSON

The format of programs in JSON is given by the objects that are instructions: which fields they
have, and what stands in them.  A text is accepted exactly if it is JSON for an array of such
objects, and the program has the instruction of each of them.  Of every other array, the elements
that are no instructions are reported, and no others.
-/

namespace StackMachine

/-- A value is an object with some fields and no others, in whatever order they come. -/
def Json.IsObjectOf (v : Json) (entries : Fields Json) : Prop :=
  ∃ fields : Fields Json, v = .object fields ∧ ∀ key, fields.get? key = Fields.get? entries key

/-- What is found in an object does not depend on how its fields are given. -/
theorem Json.IsObjectOf.get?_eq {v : Json} {entries entries' : Fields Json}
    (h : v.IsObjectOf entries) (h' : v.IsObjectOf entries') (key : Text) :
  entries.get? key = entries'.get? key
  := by
  obtain ⟨fields, rfl, hfields⟩ := h
  obtain ⟨_, ⟨⟩, hfields'⟩ := h'
  rw [← hfields, hfields']

namespace ProgramFile

/-! ### The format -/

/-- The values that are constants: safe integers, and numerals as texts. -/
inductive IsConstant : Json → Int → Prop where
  | number {x : Number} {n : Int} (integer : x.toInt? = some n)
      (safe : n.natAbs ≤ Number.maxSafe) : IsConstant (.number x) n
  | text {t : Text} {n : Int} (numeral : t.Denotes n) : IsConstant (.string t) n

/-- The values that are instructions: a constant with its value, a jump with a target that is an
integer, and an opcode without an immediate by itself. -/
inductive Notates : Json → Instruction Number → Prop where
  | constant {v value : Json} {n : Int}
      (fields : v.IsObjectOf [("op", .string "loadc"), ("value", value)])
      (constant : IsConstant value n) : Notates v (.loadc n)
  | jump {v : Json} {x : Number}
      (fields : v.IsObjectOf [("op", .string "jump"), ("target", .number x)])
      (integer : x.isInteger = true) : Notates v (.jump x)
  | jumpz {v : Json} {x : Number}
      (fields : v.IsObjectOf [("op", .string "jumpz"), ("target", .number x)])
      (integer : x.isInteger = true) : Notates v (.jumpz x)
  | alone {v : Json} {i : Instruction Number}
      (fields : v.IsObjectOf [("op", .string i.opcode.mnemonic)])
      (immediate : i.opcode.immediate = .none) : Notates v i

theorem IsConstant.unique {v : Json} {m n : Int} (h : IsConstant v m) (h' : IsConstant v n) :
  m = n
  := by
  cases h with
  | number integer =>
    cases h' with
    | number integer' =>
      rw [integer] at integer'
      injection integer'
  | text numeral =>
    cases h' with
    | text numeral' =>
      have hread := Text.toInt?_eq_some_iff.mpr numeral
      rw [Text.toInt?_eq_some_iff.mpr numeral'] at hread
      injection hread with hread
      exact hread.symm

/-- An opcode without an immediate is an instruction by itself. -/
theorem ofNullary?_opcode {i : Instruction Number} (h : i.opcode.immediate = .none) :
  Instruction.ofNullary? i.opcode = some i
  := by
  cases i <;> first | rfl | cases h

theorem opcode_of_ofNullary? {o : Opcode} {i : Instruction Number}
    (h : Instruction.ofNullary? o = some i) :
  i.opcode = o ∧ i.opcode.immediate = .none
  := by
  cases o <;> cases h <;> exact ⟨rfl, rfl⟩

/-- A value that is an instruction names its opcode. -/
theorem Notates.exists_opcode {v : Json} {i : Instruction Number} (h : Notates v i) :
  ∃ entries : Fields Json, v.IsObjectOf entries
    ∧ entries.get? "op" = some (.string i.opcode.mnemonic)
  := by
  cases h with
  | constant fields | jump fields | jumpz fields | alone fields => exact ⟨_, fields, rfl⟩

/-- A value is one instruction only. -/
theorem Notates.unique {v : Json} {i j : Instruction Number} (h : Notates v i)
    (h' : Notates v j) :
  i = j
  := by
  have hop : i.opcode = j.opcode := by
    obtain ⟨_, hentries, hi⟩ := h.exists_opcode
    obtain ⟨_, hentries', hj⟩ := h'.exists_opcode
    rw [hentries.get?_eq hentries', hj] at hi
    injection hi with hi
    injection hi with hi
    exact Opcode.mnemonic_injective hi.symm
  cases h with
  | constant fields constant =>
    cases h' with
    | constant fields' constant' =>
      have hvalue := Option.some.inj (fields.get?_eq fields' "value")
      subst hvalue
      rw [constant.unique constant']
    | jump | jumpz => cases hop
    | alone _ immediate =>
      rw [← hop] at immediate
      cases immediate
  | jump fields =>
    cases h' with
    | jump fields' =>
      have htarget := Option.some.inj (fields.get?_eq fields' "target")
      injection htarget with htarget
      rw [htarget]
    | constant | jumpz => cases hop
    | alone _ immediate =>
      rw [← hop] at immediate
      cases immediate
  | jumpz fields =>
    cases h' with
    | jumpz fields' =>
      have htarget := Option.some.inj (fields.get?_eq fields' "target")
      injection htarget with htarget
      rw [htarget]
    | constant | jump => cases hop
    | alone _ immediate =>
      rw [← hop] at immediate
      cases immediate
  | alone _ immediate =>
    apply Option.some.inj
    rw [← ofNullary?_opcode immediate, hop, ofNullary?_opcode]
    rw [← hop]
    exact immediate

/-! ### Shapes -/

theorem Fit.ofFlaws_eq_exact_iff {i j : Instruction Number} {flaws : List Flaw} :
  Fit.ofFlaws i flaws = .exact j ↔ i = j ∧ flaws = []
  := by
  cases flaws with
  | nil => simp [ofFlaws]
  | cons flaw flaws => simp [ofFlaws]

theorem opcodeText?_eq_some_iff {fields : Fields Json} {t : Text} :
  opcodeText? fields = some t ↔ fields.get? "op" = some (.string t)
  := by
  rw [opcodeText?, Option.bind_eq_some_iff]
  constructor
  · rintro ⟨v, hv, ht⟩
    cases v <;> cases ht
    exact hv
  · intro h
    exact ⟨_, h, rfl⟩

theorem extraFields_eq_nil_iff {known : List Text} {fields : Fields Json} :
  extraFields known fields = [] ↔ ∀ key ∈ fields.keys, key ∈ known
  := by
  have hunexpected : fields.unexpected known = [] ↔ ∀ key ∈ fields.keys, key ∈ known := by
    rw [Fields.unexpected, List.filter_eq_nil_iff]
    simp
  rw [← hunexpected, extraFields]
  cases fields.unexpected known <;> simp

theorem valueFlaws_eq_nil_iff {x : Number} :
  valueFlaws x = [] ↔ ∃ n, x.toInt? = some n ∧ n.natAbs ≤ Number.maxSafe
  := by
  simp only [← Number.toSafeInt?_eq_some_iff, ← Option.isSome_iff_exists]
  rw [valueFlaws, List.append_eq_nil_iff]
  constructor
  · rintro ⟨-, hsafe⟩
    by_contra hnone
    rw [if_neg hnone] at hsafe
    cases hsafe
  · intro hsafe
    obtain ⟨n, hn⟩ := Option.isSome_iff_exists.mp hsafe
    have hinteger : x.isInteger = true := by
      rw [Number.isInteger, (Number.toSafeInt?_eq_some_iff.mp hn).1]
      rfl
    rw [if_pos hinteger, if_pos hsafe]
    exact ⟨rfl, rfl⟩

section

variable {fields entries : Fields Json} {i : Instruction Number}

/-- An object has some fields and no others if it has the values of their keys and no further
keys. -/
theorem isObjectOf_iff :
  (Json.object fields).IsObjectOf entries
    ↔ (∀ key ∈ entries.keys, fields.get? key = entries.get? key)
      ∧ extraFields entries.keys fields = []
  := by
  rw [extraFields_eq_nil_iff, ← Fields.get?_eq_iff]
  constructor
  · rintro ⟨_, ⟨⟩, h⟩
    exact h
  · intro h
    exact ⟨fields, rfl, h⟩

/-- An object with two fields. -/
theorem isObjectOf_pair_iff {k l : Text} (hkl : l ≠ k) {v w : Json} :
  (Json.object fields).IsObjectOf [(k, v), (l, w)]
    ↔ fields.get? k = some v ∧ fields.get? l = some w ∧ extraFields [k, l] fields = []
  := by
  rw [isObjectOf_iff]
  simp [Fields.keys, Fields.get?_cons, hkl, and_assoc]

/-- An object with one field. -/
theorem isObjectOf_singleton_iff {k : Text} {v : Json} :
  (Json.object fields).IsObjectOf [(k, v)]
    ↔ fields.get? k = some v ∧ extraFields [k] fields = []
  := by
  rw [isObjectOf_iff]
  simp [Fields.keys, Fields.get?_cons]

/-- The first shape is that of a constant. -/
theorem constantFit_eq_exact_iff :
  constantFit fields = .exact i
    ↔ ∃ value n, i = .loadc n
      ∧ (Json.object fields).IsObjectOf [("op", .string "loadc"), ("value", value)]
      ∧ IsConstant value n
  := by
  simp only [isObjectOf_pair_iff (by decide : Text.ofString "value" ≠ "op")]
  constructor
  · intro h
    simp only [constantFit] at h
    split at h
    · next hop =>
      have hop := opcodeText?_eq_some_iff.mp hop
      split at h
      · next x hvalue =>
        obtain ⟨rfl, hflaws⟩ := Fit.ofFlaws_eq_exact_iff.mp h
        obtain ⟨hsafe, hextra⟩ := List.append_eq_nil_iff.mp hflaws
        obtain ⟨n, hn, hsafe⟩ := valueFlaws_eq_nil_iff.mp hsafe
        refine ⟨_, n, ?_, ⟨hop, hvalue, hextra⟩, .number hn hsafe⟩
        rw [hn]
        rfl
      · next t hvalue =>
        split at h
        · next n hn =>
          obtain ⟨rfl, hextra⟩ := Fit.ofFlaws_eq_exact_iff.mp h
          exact ⟨_, n, rfl, ⟨hop, hvalue, hextra⟩, .text (Text.toInt?_eq_some_iff.mp hn)⟩
        · cases h
      · cases h
    · cases h
  · rintro ⟨value, n, rfl, ⟨hop, hvalue, hextra⟩, hconstant⟩
    have hop := opcodeText?_eq_some_iff.mpr hop
    simp only [constantFit, if_pos hop, hvalue]
    cases hconstant with
    | @number x _ hn hsafe =>
      apply Fit.ofFlaws_eq_exact_iff.mpr
      rw [hn, valueFlaws_eq_nil_iff.mpr ⟨n, hn, hsafe⟩, hextra]
      exact ⟨rfl, rfl⟩
    | text hnumeral =>
      simp only [Text.toInt?_eq_some_iff.mpr hnumeral]
      apply Fit.ofFlaws_eq_exact_iff.mpr ⟨rfl, hextra⟩

theorem jump?_eq_some_iff {name : Text} {jump : Number → Instruction Number} :
  jump? name = some jump ↔ name = "jump" ∧ jump = .jump ∨ name = "jumpz" ∧ jump = .jumpz
  := by
  rw [jump?]
  constructor
  · intro h
    split at h
    · next hname =>
      cases h
      exact .inl ⟨hname, rfl⟩
    · split at h
      · next hname =>
        cases h
        exact .inr ⟨hname, rfl⟩
      · cases h
  · rintro (⟨rfl, rfl⟩ | ⟨rfl, rfl⟩)
    · rfl
    · rfl

/-- The second shape is that of a jump. -/
theorem jumpFit_eq_exact_iff :
  jumpFit fields = .exact i
    ↔ ∃ name jump x, jump? name = some jump ∧ i = jump x
      ∧ (Json.object fields).IsObjectOf [("op", .string name), ("target", .number x)]
      ∧ x.isInteger = true
  := by
  simp only [isObjectOf_pair_iff (by decide : Text.ofString "target" ≠ "op"),
    ← opcodeText?_eq_some_iff]
  constructor
  · intro h
    rw [jumpFit] at h
    split at h
    · next jump x hjump hx =>
      obtain ⟨name, hname, hjump⟩ := Option.bind_eq_some_iff.mp hjump
      obtain ⟨rfl, hflaws⟩ := Fit.ofFlaws_eq_exact_iff.mp h
      obtain ⟨hinteger, hextra⟩ := List.append_eq_nil_iff.mp hflaws
      refine ⟨name, jump, x, hjump, rfl, ⟨hname, hx, hextra⟩, ?_⟩
      by_contra hfraction
      rw [if_neg hfraction] at hinteger
      cases hinteger
    · cases h
  · rintro ⟨name, jump, x, hjump, rfl, ⟨hname, hx, hextra⟩, hinteger⟩
    rw [jumpFit, hname, Option.bind_some, hjump, hx]
    apply Fit.ofFlaws_eq_exact_iff.mpr
    rw [if_pos hinteger, hextra]
    exact ⟨rfl, rfl⟩

/-- The third shape is that of an opcode by itself. -/
theorem nullaryFit_eq_exact_iff :
  nullaryFit fields = .exact i
    ↔ (Json.object fields).IsObjectOf [("op", .string i.opcode.mnemonic)]
      ∧ i.opcode.immediate = .none
  := by
  rw [isObjectOf_singleton_iff, ← opcodeText?_eq_some_iff]
  constructor
  · intro h
    simp only [nullaryFit] at h
    split at h
    · cases h
    · next name hname =>
      split at h
      · next j hj =>
        obtain ⟨rfl, hextra⟩ := Fit.ofFlaws_eq_exact_iff.mp h
        obtain ⟨o, ho, hnullary⟩ := Option.bind_eq_some_iff.mp hj
        obtain ⟨hopcode, hnone⟩ := opcode_of_ofNullary? hnullary
        rw [hopcode, Opcode.mnemonic_of_ofMnemonic? ho, ← hopcode]
        exact ⟨⟨hname, hextra⟩, hnone⟩
      · cases h
  · rintro ⟨⟨hname, hextra⟩, hnone⟩
    simp only [nullaryFit, hname, Opcode.ofMnemonic?_mnemonic, Option.bind_some,
      ofNullary?_opcode hnone]
    apply Fit.ofFlaws_eq_exact_iff.mpr ⟨rfl, hextra⟩

end

/-- A value is an instruction exactly if it is one by some shape. -/
theorem exact_mem_fits_iff {v : Json} {i : Instruction Number} :
  Fit.exact i ∈ fits v ↔ Notates v i
  := by
  constructor
  · intro h
    cases v with
    | object fields =>
      simp only [fits, List.mem_cons, List.not_mem_nil, or_false] at h
      rcases h with h | h | h
      · obtain ⟨value, n, rfl, hfields, hconstant⟩ := constantFit_eq_exact_iff.mp h.symm
        apply Notates.constant hfields hconstant
      · obtain ⟨name, jump, x, hjump, rfl, hfields, hinteger⟩ := jumpFit_eq_exact_iff.mp h.symm
        rcases jump?_eq_some_iff.mp hjump with ⟨rfl, rfl⟩ | ⟨rfl, rfl⟩
        · apply Notates.jump hfields hinteger
        · apply Notates.jumpz hfields hinteger
      · obtain ⟨hfields, hnone⟩ := nullaryFit_eq_exact_iff.mp h.symm
        apply Notates.alone hfields hnone
    | _ => cases h
  · intro h
    obtain ⟨_, ⟨fields, rfl, -⟩, -⟩ := h.exists_opcode
    simp only [fits, List.mem_cons, List.not_mem_nil, or_false]
    cases h with
    | constant hfields hconstant =>
      left
      exact (constantFit_eq_exact_iff.mpr ⟨_, _, rfl, hfields, hconstant⟩).symm
    | jump hfields hinteger | jumpz hfields hinteger =>
      right
      left
      exact (jumpFit_eq_exact_iff.mpr ⟨_, _, _, rfl, rfl, hfields, hinteger⟩).symm
    | alone hfields hnone =>
      right
      right
      exact (nullaryFit_eq_exact_iff.mpr ⟨hfields, hnone⟩).symm

/-- An element is delivered as an instruction exactly if it is that instruction. -/
theorem element_eq_ok_iff (index : Nat) {v : Json} {i : Instruction Number} :
  element index v = .ok i ↔ Notates v i
  := by
  have hfound {j : Instruction Number} (h : (fits v).findSome? Fit.instruction? = some j) :
      Notates v j := by
    obtain ⟨fit, hfit, hj⟩ := List.exists_of_findSome?_eq_some h
    cases fit <;> cases hj
    apply exact_mem_fits_iff.mp hfit
  constructor
  · intro h
    rw [element] at h
    split at h
    · next hj =>
      cases h
      apply hfound hj
    · cases h
    · cases h
  · intro h
    obtain ⟨j, hj⟩ : ∃ j, (fits v).findSome? Fit.instruction? = some j := by
      apply Option.isSome_iff_exists.mp
      rw [List.findSome?_isSome_iff]
      exact ⟨_, exact_mem_fits_iff.mpr h, rfl⟩
    rw [element.eq_def, hj, h.unique (hfound hj)]

/-! ### What is wrong with an element -/

/-- What is reported about the element with an index. -/
def elementProblems (v : Json) (index : Nat) : List Problem := problems [element index v]

theorem problems_elements (items : List Json) :
  problems (elements items) = items.zipIdx.flatMap fun p => elementProblems p.1 p.2
  := by
  rw [problems, elements, List.flatMap_map]
  congr 1
  funext p
  rw [elementProblems, problems, List.flatMap_singleton]

/-- Everything that is reported about an element has its index. -/
theorem index_of_mem_elementProblems {v : Json} {index : Nat} {problem : Problem}
    (h : problem ∈ elementProblems v index) :
  problem.index = some index
  := by
  rw [elementProblems, problems, List.flatMap_singleton, element] at h
  split at h
  · next heq =>
    split at heq <;> cases heq
    cases h
  · next heq =>
    split at heq <;> cases heq
    · obtain ⟨flaw, -, rfl⟩ := List.mem_map.mp h
      rfl
    · cases List.mem_singleton.mp h
      rfl

/-- An element is never found flawed without a flaw. -/
theorem Fit.ofFlaws_ne_flawed_nil (i : Instruction Number) (flaws : List Flaw) :
  Fit.ofFlaws i flaws ≠ .flawed []
  := by
  cases flaws <;> rintro ⟨⟩

theorem flawed_nil_not_mem_fits (v : Json) :
  Fit.flawed [] ∉ fits v
  := by
  intro h
  cases v with
  | object fields =>
    simp only [fits, List.mem_cons, List.not_mem_nil, or_false] at h
    rcases h with h | h | h
    · simp only [constantFit] at h
      split at h
      · split at h
        · cases Fit.ofFlaws_ne_flawed_nil _ _ h.symm
        · split at h
          · cases Fit.ofFlaws_ne_flawed_nil _ _ h.symm
          · cases h
        · cases h
      · cases h
    · rw [jumpFit] at h
      split at h
      · cases Fit.ofFlaws_ne_flawed_nil _ _ h.symm
      · cases h
    · simp only [nullaryFit] at h
      split at h
      · cases h
      · split at h
        · cases Fit.ofFlaws_ne_flawed_nil _ _ h.symm
        · cases h
  | _ => cases h

/-- An element is never refused without a problem. -/
theorem element_ne_error_nil (index : Nat) (v : Json) :
  element index v ≠ .error []
  := by
  rw [element]
  split
  · rintro ⟨⟩
  · next hflaws =>
    intro hnil
    injection hnil with hnil
    rw [List.map_eq_nil_iff.mp hnil] at hflaws
    obtain ⟨fit, hfit, h⟩ := List.exists_of_findSome?_eq_some hflaws
    cases fit <;> cases h
    apply flawed_nil_not_mem_fits v hfit
  · rintro ⟨⟩

/-- Nothing is reported about an element exactly if it is an instruction. -/
theorem elementProblems_eq_nil_iff {v : Json} {index : Nat} :
  elementProblems v index = [] ↔ ∃ i, Notates v i
  := by
  simp only [← element_eq_ok_iff index]
  rw [elementProblems, problems, List.flatMap_singleton]
  have hreason := element_ne_error_nil index v
  cases hv : element index v with
  | ok i => exact ⟨fun _ => ⟨i, rfl⟩, fun _ => rfl⟩
  | error ps =>
    rw [hv] at hreason
    constructor
    · rintro rfl
      contradiction
    · rintro ⟨i, ⟨⟩⟩

/-! ### Programs -/

/-- The elements that are instructions are delivered, in their order. -/
theorem filterMap_elements {items : List Json} {p : Program}
    (h : List.Forall₂ Notates items p) :
  (elements items).filterMap Except.toOption = p
  := by
  rw [elements]
  generalize 0 = index
  induction h generalizing index with
  | nil => rfl
  | cons hv _ ih =>
    rw [List.zipIdx_cons, List.map_cons,
      List.filterMap_cons_some (congrArg Except.toOption ((element_eq_ok_iff index).mpr hv)), ih]

/-- Nothing is reported exactly if the elements are those of some program. -/
theorem problems_elements_eq_nil_iff {items : List Json} :
  problems (elements items) = [] ↔ ∃ p, List.Forall₂ Notates items p
  := by
  rw [problems_elements, List.flatMap_eq_nil_iff, exists_forall₂_iff, List.forall_mem_zipIdx',
    List.forall_mem_iff_forall_getElem]
  simp only [elementProblems_eq_nil_iff]

/-- The diagnostics are about the elements that are no instructions, in their order. -/
theorem exists_areAbout_problems (items : List Json) :
  ∃ indices, AreAbout ((problems (elements items)).map Problem.diagnostic) indices
    ∧ indices.Pairwise (· ≤ ·)
    ∧ ∀ k, k ∈ indices ↔ ∃ v, items[k]? = some v ∧ ∀ i, ¬ Notates v i
  := by
  rw [problems_elements, List.map_flatMap]
  use blamed (fun v index => (elementProblems v index).map Problem.diagnostic) items
  refine ⟨?_, ?_, ?_⟩
  · apply areAbout_blamed fun v index => (elementProblems v index).map Problem.diagnostic
    intro v index d hd
    obtain ⟨problem, hproblem, rfl⟩ := List.mem_map.mp hd
    rw [Problem.diagnostic, index_of_mem_elementProblems hproblem]
    rfl
  · apply pairwise_blamed items fun _ _ => Nat.le_of_lt
    intro _ _
    right
    apply Nat.le_refl
  · intro k
    rw [mem_blamed]
    simp only [ne_eq, List.map_eq_nil_iff, elementProblems_eq_nil_iff, not_exists]

/-- An array is the program of its elements, or everything that is wrong with them is reported. -/
theorem ofJson_array (items : List Json) :
  (∃ p, ofJson (.array items) = .ok p ∧ List.Forall₂ Notates items p)
    ∨ ofJson (.array items) = .error (problems (elements items))
  := by
  rw [ofJson]
  split
  · next hnil =>
    left
    obtain ⟨p, hp⟩ := problems_elements_eq_nil_iff.mp hnil
    rw [filterMap_elements hp]
    exact ⟨p, rfl, hp⟩
  · right
    rfl

/-- A JSON value is a program exactly if it is an array of the instructions. -/
theorem ofJson_eq_ok_iff {v : Json} {p : Program} :
  ofJson v = .ok p ↔ ∃ items, v = .array items ∧ List.Forall₂ Notates items p
  := by
  constructor
  · intro h
    cases v with
    | array items =>
      use items, rfl
      rcases ofJson_array items with ⟨q, hq, hitems⟩ | herror
      · rw [hq] at h
        cases h
        exact hitems
      · rw [herror] at h
        cases h
    | _ => cases h
  · rintro ⟨items, rfl, hp⟩
    rw [ofJson, problems_elements_eq_nil_iff.mpr ⟨p, hp⟩, filterMap_elements hp]

theorem parseJson_eq_ok_iff {source : Text} {p : Program} :
  parseJson source = .ok p
    ↔ ∃ items, Json.parse? source = some (.array items) ∧ List.Forall₂ Notates items p
  := by
  rw [parseJson]
  cases Json.parse? source with
  | none =>
    constructor
    · rintro ⟨⟩
    · rintro ⟨_, ⟨⟩, -⟩
  | some v => simp only [ofJson_eq_ok_iff, Option.some.injEq]

end ProgramFile

open ProgramFile

/-- A text is a program exactly if it is JSON for an array of its instructions. -/
theorem Program.ofJsonText_eq_ok_iff {source : Text} {p : Program} :
  ofJsonText source = .ok p
    ↔ ∃ items, Json.parse? source = some (.array items) ∧ List.Forall₂ Notates items p
  := by
  rw [← parseJson_eq_ok_iff, ofJsonText]
  cases parseJson source with
  | ok q => simp only [Except.mapError, Except.ok.injEq]
  | error problems =>
    constructor
    · rintro ⟨⟩
    · rintro ⟨⟩

/-- A text is accepted exactly if it is JSON for an array each of whose elements is an instruction,
and the program then has the instruction of each element, in the order of the array. -/
theorem Program.ofJsonText_accepts_iff (source : Text) :
  ((∃ p, ofJsonText source = .ok p)
    ↔ ∃ items, Json.parse? source = some (.array items) ∧ ∀ v ∈ items, ∃ i, Notates v i)
  ∧ ∀ p, ofJsonText source = .ok p
    ↔ ∃ items, Json.parse? source = some (.array items) ∧ List.Forall₂ Notates items p
  := by
  refine ⟨?_, fun p => ofJsonText_eq_ok_iff⟩
  simp only [ofJsonText_eq_ok_iff, ← exists_forall₂_iff]
  constructor
  · rintro ⟨p, items, hparse, hp⟩
    exact ⟨items, hparse, p, hp⟩
  · rintro ⟨items, hparse, p, hp⟩
    exact ⟨p, items, hparse, hp⟩

/-- Of an array that is no program, exactly the elements that are no instructions are reported, in
the order of the array. -/
theorem Program.ofJsonText_blames {source : Text} {items : List Json}
    (hparse : Json.parse? source = some (.array items))
    (hrefused : ∀ p, ofJsonText source ≠ .ok p) :
  ∃ diagnostics, ofJsonText source = .error diagnostics
    ∧ (∀ d ∈ diagnostics, d.code = "E_PROGRAM_JSON")
    ∧ ∃ indices, AreAbout diagnostics indices ∧ indices.Pairwise (· ≤ ·)
      ∧ ∀ k, k ∈ indices ↔ ∃ v, items[k]? = some v ∧ ∀ i, ¬ Notates v i
  := by
  have hproblems : ofJsonText source
      = .error ((problems (elements items)).map Problem.diagnostic) := by
    rw [ofJsonText, parseJson, hparse]
    rcases ofJson_array items with ⟨p, -, hp⟩ | herror
    · cases hrefused p (ofJsonText_eq_ok_iff.mpr ⟨items, hparse, hp⟩)
    · simp only [herror, Except.mapError]
  refine ⟨_, hproblems, ?_, exists_areAbout_problems items⟩
  intro d hd
  obtain ⟨problem, -, rfl⟩ := List.mem_map.mp hd
  rfl

/-- An element with two flaws is reported twice and one that is no object once, and the instruction
between them is not reported. -/
theorem Program.ofJsonText_blames_around :
  ∃ items,
    Json.parse? "[\x7b\"op\":\"loadc\",\"value\":1.5\x7d,\x7b\"op\":\"add\"\x7d,5]"
      = some (.array items)
    ∧ ofJsonText "[\x7b\"op\":\"loadc\",\"value\":1.5\x7d,\x7b\"op\":\"add\"\x7d,5]"
      = .error ([.flawed 0 (.fraction "value"), .flawed 0 .inexact, .shapeless 2].map
        Problem.diagnostic)
    ∧ ∀ k, k ∈ [0, 0, 2] ↔ ∃ v, items[k]? = some v ∧ ∀ i, ¬ Notates v i
  := by
  have herror : ofJsonText "[\x7b\"op\":\"loadc\",\"value\":1.5\x7d,\x7b\"op\":\"add\"\x7d,5]"
      = .error ([.flawed 0 (.fraction "value"), .flawed 0 .inexact, .shapeless 2].map
        Problem.diagnostic) := by
    decide +kernel
  have htype : (Json.parse?
      "[\x7b\"op\":\"loadc\",\"value\":1.5\x7d,\x7b\"op\":\"add\"\x7d,5]").map Json.typeName
      = some (Text.ofString "array") := by
    decide +kernel
  obtain ⟨v, hparse, harray⟩ := Option.map_eq_some_iff.mp htype
  obtain ⟨items, rfl⟩ : ∃ items, v = .array items := by
    cases v with
    | array items => exact ⟨items, rfl⟩
    | _ => exact absurd harray (by rw [Json.typeName]; decide)
  obtain ⟨diagnostics, hdiagnostics, -, indices, habout, -, hblamed⟩ :=
    ofJsonText_blames hparse (by rw [herror]; rintro _ ⟨⟩)
  refine ⟨items, hparse, herror, ?_⟩
  rw [herror] at hdiagnostics
  cases hdiagnostics
  have hindices : indices = [0, 0, 2] := habout.unique rfl
  rw [hindices] at hblamed
  exact hblamed

end StackMachine
