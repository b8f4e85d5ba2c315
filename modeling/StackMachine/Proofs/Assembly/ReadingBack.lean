import StackMachine.Proofs.Assembly.Reformatting
import StackMachine.Proofs.Assembly.Refusal
import StackMachine.Proofs.Json.Numbers
import StackMachine.Proofs.Loading
import StackMachine.Proofs.Number.Plain

/-!
# Reading listings back

The listing of a program that was loaded is assembled exactly if its constants are words and its
jumps lead to natural numbers below `10 ^ 21`.  The label of a negative integer has a minus sign,
and that of an integer from `10 ^ 21` on an exponent, neither of which is read as a label; every
other integer is named by the decimal that shows it.
-/

namespace StackMachine

/-! ### Units of listings -/

/-- Texts that can be in a listing can be joined in it. -/
theorem Text.isListed_join {separator : Text} {texts : List Text} (hseparator : separator.IsListed)
    (h : ∀ t ∈ texts, t.IsListed) :
  (join separator texts).IsListed
  := by
  by_cases hempty : texts = []
  · rw [hempty]
    simp [join, IsListed]
  · have hlines : IsListed (texts.flatMap fun t => t ++ separator) := by
      apply List.all_eq_true.mpr
      intro u hu
      obtain ⟨t, ht, hu⟩ := List.mem_flatMap.mp hu
      exact List.all_eq_true.mp (isListed_append.mpr ⟨h t ht, hseparator⟩) u hu
    rw [← Assembly.join_append _ hempty] at hlines
    apply (isListed_append.mp hlines).1

namespace Program

open Assembly

/-- What is listed before the labels at the end: lines of labels, and of operations. -/
theorem mem_bodyLines {p : Program} {t : Text} (h : t ∈ bodyLines p) :
  (∃ x, t = Listing.labelLine (label x)) ∨ ∃ i ∈ p, t = Text.ofString "  " ++ operation i
  := by
  obtain ⟨⟨o, n⟩, hmem, ht⟩ := List.mem_flatMap.mp h
  obtain ⟨i, hi, rfl⟩ := List.mem_map.mp (List.fst_mem_of_mem_zipIdx hmem)
  simp only at ht
  split at ht
  · rcases List.mem_cons.mp ht with ht | ht
    · left
      exact ⟨_, ht⟩
    · right
      exact ⟨i, hi, List.mem_singleton.mp ht⟩
  · right
    exact ⟨i, hi, List.mem_singleton.mp ht⟩

/-- Every operation is on a line. -/
theorem operation_mem_bodyLines {p : Program} {i : Instruction Number} (hi : i ∈ p) :
  Text.ofString "  " ++ operation i ∈ bodyLines p
  := by
  obtain ⟨n, hn⟩ := List.mem_iff_getElem?.mp (List.mem_map_of_mem (f := operation) hi)
  apply List.mem_flatMap.mpr
  refine ⟨(operation i, n), List.mem_zipIdx_iff_getElem?.mpr hn, ?_⟩
  simp only
  split
  · simp
  · simp

theorem operation_infix_listing {p : Program} {i : Instruction Number} (hi : i ∈ p) :
  operation i <:+: p.listing
  := by
  have hmem : Text.ofString "  " ++ operation i ∈ listedTexts p :=
    List.mem_append_left _ (operation_mem_bodyLines hi)
  rw [listing_eq, join_append _ (List.ne_nil_of_mem hmem)]
  have hline := List.infix_of_mem_flatten
    (List.mem_map_of_mem (f := fun t => t ++ [Text.lineFeed]) hmem)
  have hoperation : operation i <:+: Text.ofString "  " ++ operation i ++ [Text.lineFeed] :=
    ⟨_, _, rfl⟩
  apply hoperation.trans hline

open Text (isListed_append isListed_cons)

theorem isListed_label (x : Number) :
  (label x).IsListed
  := isListed_cons.mpr ⟨rfl, x.isListed_toText⟩

theorem isListed_operation (i : Instruction Number) :
  (operation i).IsListed
  := by
  have hname (o : Opcode) : o.mnemonic.IsListed := by
    cases o with
    | binary op => cases op <;> rfl
    | unary op => cases op <;> rfl
    | _ => rfl
  have hbare (h : operation i = i.opcode.mnemonic) : (operation i).IsListed := by
    rw [h]
    apply hname
  have hjump (o : Opcode) (x : Number) : Text.IsListed (o.mnemonic ++ 0x20 :: label x) :=
    isListed_append.mpr ⟨hname o, isListed_cons.mpr ⟨rfl, isListed_label x⟩⟩
  cases i with
  | loadc value =>
    change Text.IsListed (Text.ofString "loadc " ++ (Text.ofInt value ++ []))
    rw [List.append_nil]
    exact isListed_append.mpr ⟨rfl, Text.isListed_ofInt value⟩
  | jump target => apply hjump
  | jumpz target => apply hjump
  | load | store | pop | new | halt | binary | unary => apply hbare rfl

/-- Listings consist of letters, digits and a few marks. -/
theorem isListed_listing (p : Program) :
  p.listing.IsListed
  := by
  have hlabelLine (x : Number) : (Listing.labelLine (label x)).IsListed :=
    isListed_append.mpr ⟨isListed_label x, rfl⟩
  have hblank : Text.IsListed [0x20] := rfl
  have hfeed : Text.IsListed [Text.lineFeed] := rfl
  have htexts : ∀ t ∈ listedTexts p, t.IsListed := by
    intro t ht
    rcases List.mem_append.mp ht with ht | ht
    · rcases mem_bodyLines ht with ⟨x, rfl⟩ | ⟨i, -, rfl⟩
      · apply hlabelLine
      · exact isListed_append.mpr ⟨rfl, isListed_operation i⟩
    · split at ht
      · cases ht
      · rw [List.mem_singleton.mp ht]
        apply Text.isListed_join hblank
        intro t ht
        obtain ⟨_, hname, rfl⟩ := List.mem_map.mp ht
        obtain ⟨x, -, rfl⟩ := List.mem_map.mp hname
        apply hlabelLine
  rw [listing_eq]
  exact isListed_append.mpr ⟨Text.isListed_join hfeed htexts, hfeed⟩

end Program

/-! ### Names of targets -/

/-- Targets below `10 ^ 21` are named by the labels of what is shown for them. -/
theorem Code.listedBy_shown {code : Code} (hlength : code.length ≤ Number.maxSafe)
    (h53 : ∀ t ∈ code.targets, Number.Has53Bits t) (hlt : ∀ t ∈ code.targets, t < 10 ^ 21) :
  code.ListedBy Number.shown
  := by
  have hexact : Number.maxSafe ≤ 2 ^ 53 := by decide
  constructor
  · intro t ht
    rw [Program.label, Number.ofNat, Number.toText_of_lt (h53 t ht) (hlt t ht)]
    rfl
  · intro t ht u hu
    apply Number.shown_injOn (h53 t ht) (h53 u hu) (hlt t ht) (hlt u hu)
  · intro t _ hinside
    apply Number.shown_of_le
    omega
  · intro t ht hpast
    by_cases h : t ≤ 2 ^ 53
    · rw [Number.shown_of_le h]
      exact hpast
    · have := Number.lt_shown (h53 t ht) (Nat.not_le.mp h)
      omega

namespace Assembly

/-! ### Constants -/

/-- A constant that is encoded is a word. -/
theorem isWellFormed_of_encode_statementOf {table : List Definition} {i j : Instruction Nat}
    (h : encode table (statementOf i) = .ok j) :
  i.IsWellFormed
  := by
  cases i with
  | loadc value =>
    obtain ⟨v, hv, -⟩ := bind_eq_ok h
    simp only [resolve, Token.bare, Text.toInt?_ofInt, Option.getD_some] at hv
    split at hv
    · next hword => exact hword
    · cases hv
  | _ => trivial

/-- If the listing of code is assembled, the constants of the code are words. -/
theorem isWellFormed_of_assemble_listing {code code' : Code} {f : Nat → Nat}
    (h : code.ListedBy f) (hcode' : assemble (Program.listing code.toProgram) = .ok code') :
  ∀ i ∈ code, i.IsWellFormed
  := by
  intro i hi
  obtain ⟨ts, lines, hscans, hlines, hstatements⟩ := exists_scans_listing h
  rw [listing_eq] at hscans hcode'
  rw [assemble_iff_of_scans hscans, assembleTokens, hlines] at hcode'
  have hencoded := encodeAll_of_encodeLines hcode'
  rw [encodeAll, hstatements, Code.relabel, List.map_map, List.map_map] at hencoded
  have hmem : encode (definitions 0 lines) (statementOf (i.map f)) ∈ code'.map .ok := by
    rw [← hencoded]
    exact List.mem_map_of_mem hi
  obtain ⟨j, -, hj⟩ := List.mem_map.mp hmem
  apply Instruction.isWellFormed_map.mp (isWellFormed_of_encode_statementOf hj.symm)

/-! ### Targets that are not named -/

/-- The text of a jump names the target after the opcode. -/
theorem operation_of_target? {i : Instruction Number} {x : Number} (hx : i.target? = some x) :
  Program.operation i = i.opcode.mnemonic ++ 0x20 :: Program.label x
  := by
  rw [Program.operation, hx]

/-- A listing is not assembled if some jump leads to a negative integer, or to an integer that is
written with an exponent. -/
theorem not_assemble_of_target? {p : Program} {i : Instruction Number} (hi : i ∈ p) {x : Number}
    (hx : i.target? = some x) {n : Int} (hn : x.toInt? = some n)
    (h53 : Number.Has53Bits n.natAbs) (hout : n < 0 ∨ 10 ^ 21 ≤ n) (code : Code) :
  assemble p.listing ≠ .ok code
  := by
  have hint : x = .int n := by
    cases x with
    | int m =>
      cases hn
      rfl
    | negativeZero =>
      cases hn
      omega
    | fraction | infinity | nan => cases hn
  have hinfix := Program.operation_infix_listing hi
  rw [operation_of_target? hx, Program.label, hint] at hinfix
  apply not_assemble_of_sign p.isListed_listing.hash_not_mem
  rcases hout with hneg | hge
  · right
    obtain ⟨t, ht⟩ := Number.toText_of_neg hneg
    rw [ht] at hinfix
    apply List.IsInfix.trans _ hinfix
    exact ⟨i.opcode.mnemonic ++ [0x20], t, by simp⟩
  · left
    obtain ⟨k, rfl⟩ := Int.eq_ofNat_of_zero_le (by omega : 0 ≤ n)
    have hplus : CodeUnit.ofChar '+' ∈ (Number.int k).toText :=
      Number.plus_mem_toText h53 (by omega)
    apply hinfix.subset
    simp [hplus]

end Assembly

/-! ### Programs -/

/-- The positions to which a program jumps. -/
def Program.positions (p : Program) : Code := p.map fun i => i.map fun x => x.toIndex?.getD 0

/-- A program whose jumps lead to integers of at most 53 significant bits. -/
def Program.IsRounded (p : Program) : Prop :=
  ∀ i ∈ p, ∀ x, i.target? = some x → ∃ n : Int, x.toInt? = some n ∧ Number.Has53Bits n.natAbs

/-- An instruction whose target, if it has one, is written without a sign and without an
exponent. -/
def Instruction.IsNamed (i : Instruction Number) : Prop :=
  ∀ x, i.target? = some x → ∃ n : Nat, x.toInt? = some (n : Int) ∧ n < 10 ^ 21

namespace Program

theorem length_positions (p : Program) :
  p.positions.length = p.length
  := List.length_map _

theorem isWellFormed_positions (p : Program) :
  (∀ i ∈ p.positions, i.IsWellFormed) ↔ ∀ i ∈ p, i.IsWellFormed
  := by
  rw [positions, List.forall_mem_map]
  simp only [Instruction.isWellFormed_map]

variable {p : Program} (hnamed : ∀ i ∈ p, i.IsNamed)

include hnamed in
/-- A program that jumps to natural numbers is its positions, but for the signs of zeros. -/
theorem toProgram_positions :
  p.positions.toProgram = p.map (·.map Number.unsigned)
  := by
  rw [Code.toProgram, positions, List.map_map]
  apply List.map_congr_left
  intro i hi
  rw [Function.comp_apply, Instruction.map_map]
  apply Instruction.map_congr
  intro x hx
  obtain ⟨n, hn, -⟩ := hnamed i hi x hx
  have hindex := Number.toIndex?_eq_some_iff.mpr hn
  rw [Number.unsigned_of_toIndex? hindex, hindex, Option.getD_some]

include hnamed in
/-- The listing of a program is that of its positions. -/
theorem listing_positions :
  Program.listing p.positions.toProgram = p.listing
  := by
  rw [toProgram_positions hnamed, Assembly.listing_map_unsigned]

include hnamed in
/-- A program whose targets are named is listed by what is shown for its positions. -/
theorem listedBy_positions (hrounded : p.IsRounded) (hlength : p.length ≤ Number.maxSafe) :
  p.positions.ListedBy Number.shown
  := by
  have htargets : ∀ t ∈ p.positions.targets, Number.Has53Bits t ∧ t < 10 ^ 21 := by
    intro t ht
    obtain ⟨j, hj, htarget⟩ := Code.mem_targets.mp ht
    obtain ⟨i, hi, rfl⟩ := List.mem_map.mp hj
    obtain ⟨x, hx, rfl⟩ := Instruction.exists_of_target?_map htarget
    obtain ⟨n, hn, hlt⟩ := hnamed i hi x hx
    obtain ⟨m, hm, hbits⟩ := hrounded i hi x hx
    rw [Number.toIndex?_eq_some_iff.mpr hn, Option.getD_some]
    rw [hn] at hm
    cases hm
    exact ⟨hbits, hlt⟩
  apply Code.listedBy_shown
  · rw [length_positions]
    exact hlength
  · exact fun t ht => (htargets t ht).1
  · exact fun t ht => (htargets t ht).2

end Program

namespace Assembly

section

variable {p : Program} (hrounded : p.IsRounded)

include hrounded in
/-- If the listing of a program is assembled, the constants of the program are words and its
targets are named. -/
theorem named_of_assemble_listing (hlength : p.length ≤ Number.maxSafe) {code : Code}
    (hcode : assemble p.listing = .ok code) :
  ∀ i ∈ p, i.IsWellFormed ∧ i.IsNamed
  := by
  have hnamed : ∀ i ∈ p, i.IsNamed := by
    intro i hi x hx
    obtain ⟨n, hn, hbits⟩ := hrounded i hi x hx
    have hin : ¬ (n < 0 ∨ 10 ^ 21 ≤ n) := fun hout =>
      not_assemble_of_target? hi hx hn hbits hout code hcode
    obtain ⟨k, rfl⟩ := Int.eq_ofNat_of_zero_le (by omega : 0 ≤ n)
    exact ⟨k, hn, by omega⟩
  have hwell : ∀ i ∈ p, i.IsWellFormed := by
    have hlisted := Program.listedBy_positions hnamed hrounded hlength
    rw [← Program.listing_positions hnamed] at hcode
    rw [← Program.isWellFormed_positions]
    exact isWellFormed_of_assemble_listing hlisted hcode
  intro i hi
  exact ⟨hwell i hi, hnamed i hi⟩

include hrounded in
/-- A program whose constants are words and whose targets are named has a listing that assembles
to its positions, those past the end brought down to the end. -/
theorem assemble_listing_positions (hlength : p.length ≤ Number.maxSafe)
    (h : ∀ i ∈ p, i.IsWellFormed ∧ i.IsNamed) :
  assemble p.listing = .ok p.positions.clip
  := by
  have hnamed : ∀ i ∈ p, i.IsNamed := fun i hi => (h i hi).2
  rw [← Program.listing_positions hnamed]
  apply assemble_listing_of_listedBy (Program.listedBy_positions hnamed hrounded hlength)
  · apply (Program.isWellFormed_positions p).mpr
    intro i hi
    exact (h i hi).1
  · intro t _
    rw [Program.length_positions]
    apply Nat.le_trans (Nat.min_le_right _ _) hlength

end

/-! ### Loaded programs -/

theorem isRounded_of_ofJsonText {source : Text} {p : Program}
    (hp : Program.ofJsonText source = .ok p) :
  p.IsRounded
  := by
  intro i hi x hx
  obtain ⟨items, fields, hparse, hmem, hdescribes⟩ := ProgramFile.exists_describes hp hi
  obtain ⟨htarget, hinteger⟩ := hdescribes.target x hx
  obtain ⟨n, hn⟩ := Option.isSome_iff_exists.mp hinteger
  have hholds : Json.Holds Number.IsRounded (.array items) :=
    Json.holds_parse? (fun _ _ _ => Number.isRounded_json?) hparse
  cases hholds with
  | array hitems =>
    cases (hitems _ hmem).get? htarget with
    | number hrounded => exact ⟨n, hn, hrounded n hn⟩

/-- The constants of assembled code are words, and its targets are exact numbers, which are
named. -/
theorem named_of_assemble {source : Text} {code : Code} (hcode : assemble source = .ok code)
    (hlength : code.length ≤ Number.maxSafe) :
  code.toProgram.IsRounded ∧ ∀ i ∈ code.toProgram, i.IsWellFormed ∧ i.IsNamed
  := by
  have hgood := isWellFormed_of_assemble hcode hlength
  have htarget : ∀ i ∈ code.toProgram, ∀ x, i.target? = some x →
      ∃ t : Nat, x = .int t ∧ t ≤ Number.maxSafe := by
    intro i hi x hx
    obtain ⟨j, hj, rfl⟩ := List.mem_map.mp hi
    obtain ⟨t, ht, rfl⟩ := Instruction.exists_of_target?_map hx
    exact ⟨t, rfl, (hgood j hj).2 t ht⟩
  constructor
  · intro i hi x hx
    obtain ⟨t, rfl, ht⟩ := htarget i hi x hx
    refine ⟨t, rfl, Number.has53Bits_of_le (Nat.le_trans ht (by decide))⟩
  · intro i hi
    constructor
    · obtain ⟨j, hj, rfl⟩ := List.mem_map.mp hi
      apply Instruction.isWellFormed_map.mpr (hgood j hj).1
    · intro x hx
      obtain ⟨t, rfl, ht⟩ := htarget i hi x hx
      exact ⟨t, rfl, Nat.lt_of_le_of_lt ht (by decide)⟩

/-- The listing of a program that was loaded is assembled exactly if the constants of the program
are words and its jumps lead to natural numbers below `10 ^ 21`, as they do if the program was
assembled.  It assembles to the program, whose targets past the end are brought down to the end.
Arrays have fewer than `2 ^ 32` elements, so that the length of a program is always an exact
number. -/
theorem listing_reads_back_iff {source file : Text} {p : Program}
    (hp : Program.ofFile source file = .ok p) (hlength : p.length ≤ Number.maxSafe) :
  ((∃ code, assemble p.listing = .ok code) ↔ ∀ i ∈ p, i.IsWellFormed ∧ i.IsNamed)
    ∧ (∀ code, assemble p.listing = .ok code → code = p.positions.clip)
    ∧ (ProgramFile.isJson file = false → ∀ i ∈ p, i.IsWellFormed ∧ i.IsNamed)
  := by
  have hloaded : p.IsRounded
      ∧ (ProgramFile.isJson file = false → ∀ i ∈ p, i.IsWellFormed ∧ i.IsNamed) := by
    rw [Program.ofFile] at hp
    split at hp
    · next hjson =>
      use isRounded_of_ofJsonText hp
      intro hassembly
      rw [hjson] at hassembly
      cases hassembly
    · obtain ⟨code, hcode, rfl⟩ := Instruction.map_eq_ok hp
      rw [Code.toProgram, List.length_map] at hlength
      obtain ⟨hrounded, hnamed⟩ := named_of_assemble (assemble_of_assembleFile hcode) hlength
      exact ⟨hrounded, fun _ => hnamed⟩
  obtain ⟨hrounded, hassembly⟩ := hloaded
  refine ⟨⟨?_, ?_⟩, ?_, hassembly⟩
  · rintro ⟨code, hcode⟩
    exact named_of_assemble_listing hrounded hlength hcode
  · intro h
    exact ⟨_, assemble_listing_positions hrounded hlength h⟩
  · intro code hcode
    have h := named_of_assemble_listing hrounded hlength hcode
    rw [assemble_listing_positions hrounded hlength h] at hcode
    cases hcode
    rfl

/-- Jumps to a great integer, which is written without an exponent, and to negative zero are read
back. -/
theorem listing_reads_back_great :
  ∃ p code, Program.ofFile
      "[\x7b\"op\":\"jump\",\"target\":1e20\x7d,\x7b\"op\":\"jumpz\",\"target\":-0\x7d]" "p.json"
      = .ok p
    ∧ assemble p.listing = .ok code ∧ code = [.jump 2, .jumpz 0]
  := by
  have hp : Program.ofFile
      "[\x7b\"op\":\"jump\",\"target\":1e20\x7d,\x7b\"op\":\"jumpz\",\"target\":-0\x7d]" "p.json"
      = .ok [.jump (.int (10 ^ 20)), .jumpz .negativeZero] := by
    decide +kernel
  obtain ⟨hreads, hcode, -⟩ := listing_reads_back_iff hp (by decide)
  have hnamed : ∀ i ∈ ([.jump (.int (10 ^ 20)), .jumpz .negativeZero] : Program),
      i.IsWellFormed ∧ i.IsNamed := by
    intro i hi
    rcases List.mem_cons.mp hi with rfl | hi
    · use trivial
      rintro _ ⟨⟩
      exact ⟨10 ^ 20, rfl, by decide⟩
    · rw [List.mem_singleton.mp hi]
      use trivial
      rintro _ ⟨⟩
      exact ⟨0, rfl, by decide⟩
  obtain ⟨code, hassemble⟩ := hreads.mpr hnamed
  refine ⟨_, code, hp, hassemble, ?_⟩
  rw [hcode code hassemble]
  decide

/-- The listing of a jump to a negative integer is not assembled: its label has a minus sign. -/
theorem listing_fails_negative :
  ∃ p, Program.ofFile "[\x7b\"op\":\"jump\",\"target\":-1\x7d]" "p.json" = .ok p
    ∧ ∀ code, assemble p.listing ≠ .ok code
  := by
  have hp : Program.ofFile "[\x7b\"op\":\"jump\",\"target\":-1\x7d]" "p.json"
      = .ok [.jump (.int (-1))] := by
    decide +kernel
  have herror : (assemble (Program.listing [.jump (.int (-1))])).toOption = none := by
    decide +kernel
  refine ⟨_, hp, ?_⟩
  intro code hcode
  rw [hcode] at herror
  cases herror

end Assembly

end StackMachine
