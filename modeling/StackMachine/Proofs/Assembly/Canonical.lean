import StackMachine.Proofs.Assembly.Reformatting
import StackMachine.Proofs.Assembly.Sources

/-!
# Listings of listings

A listing determines the code of which it is the listing.  So the listing of a text that is
assembled is its own listing exactly if no jump leads past the end; and the listing of the
listing always is.
-/

namespace StackMachine

/-! ### Clipped code -/

theorem Code.length_clip (code : Code) :
  code.clip.length = code.length
  := List.length_map _

/-- No jump of clipped code leads past the end. -/
theorem Code.le_of_mem_targets_clip {code : Code} {t : Nat} (ht : t ∈ code.clip.targets) :
  t ≤ code.length
  := by
  obtain ⟨i, hi, htarget⟩ := mem_targets.mp ht
  obtain ⟨j, -, rfl⟩ := List.mem_map.mp hi
  obtain ⟨u, -, rfl⟩ := Instruction.exists_of_target?_map htarget
  apply Nat.min_le_right

/-- Clipping changes code exactly if some jump leads past the end. -/
theorem Code.clip_eq_self_iff {code : Code} :
  code.clip = code ↔ ∀ t ∈ code.targets, t ≤ code.length
  := by
  constructor
  · intro h t ht
    rw [← h] at ht
    apply le_of_mem_targets_clip ht
  · intro h
    apply relabel_eq_self
    intro t ht
    apply Nat.min_eq_left (h t ht)

theorem Code.clip_clip (code : Code) :
  code.clip.clip = code.clip
  := by
  apply clip_eq_self_iff.mpr
  intro t ht
  rw [length_clip]
  apply le_of_mem_targets_clip ht

namespace Assembly

/-! ### Listings and their code -/

/-- A text scans in one way only. -/
theorem Scans.unique {t : Text} {ts ts' : List Token} (h : Scans t [] ts) (h' : Scans t [] ts') :
  ts = ts'
  := by
  obtain ⟨us, q, hus, rfl⟩ := h .start
  obtain ⟨us', q', hus', rfl⟩ := h' .start
  rw [List.append_nil, Lexed.scan, List.append_nil] at hus hus'
  have htoken : Function.Injective Lexed.token := fun _ _ => Lexed.token.inj
  rw [htoken.list_map (hus.symm.trans hus')]

/-- An instruction is known from its statement. -/
theorem statementOf_injective :
  Function.Injective statementOf
  := by
  intro i j h
  have hopcode : i.opcode = j.opcode := congrArg Statement.opcode h
  have hoperand : operandOf i = operandOf j := congrArg Statement.operand h
  cases i with
  | loadc value =>
    cases j <;> cases hopcode
    have hvalue := congrArg (Option.map fun o => Text.toInt? o.token.image) hoperand
    simp only [operandOf, Operand.token, Token.bare, Option.map_some, Text.toInt?_ofInt] at hvalue
    cases hvalue
    rfl
  | jump target | jumpz target =>
    cases j <;> cases hopcode
    have himage := congrArg (Option.map fun o => o.token.image) hoperand
    have hlabel := Option.some.inj himage
    rw [Code.label_injective hlabel]
  | load | store | pop | new | halt | binary | unary =>
    cases j <;> cases hopcode
    rfl

/-- Code is known from its listing. -/
theorem eq_of_listing_toProgram {code code' : Code}
    (hsafe : ∀ t ∈ code.targets, t ≤ Number.maxSafe)
    (hsafe' : ∀ t ∈ code'.targets, t ≤ Number.maxSafe)
    (h : Program.listing code.toProgram = Program.listing code'.toProgram) :
  code = code'
  := by
  obtain ⟨ts, lines, hscans, hlines, hstatements⟩ := exists_scans_listing (Code.listedBy_id hsafe)
  obtain ⟨ts', lines', hscans', hlines', hstatements'⟩ :=
    exists_scans_listing (Code.listedBy_id hsafe')
  rw [h] at hscans
  rw [hscans.unique hscans', hlines'] at hlines
  cases hlines
  rw [Code.relabel_id] at hstatements hstatements'
  apply statementOf_injective.list_map
  rw [← hstatements, hstatements']

/-! ### Listing again -/

/-- The listing of a text that is assembled is assembled too.  It is its own listing exactly if
no jump of the text leads past the end.  In any case the listing of the listing is assembled, and
is its own listing.  No text has more than `2 ^ 53 - 1` units. -/
theorem listing_canonical {source : Text} {code : Code} (hcode : assemble source = .ok code)
    (hlength : source.length ≤ Number.maxSafe) :
  ∃ code' code'', assemble (Program.listing code.toProgram) = .ok code'
    ∧ assemble (Program.listing code'.toProgram) = .ok code''
    ∧ (Program.listing code'.toProgram = Program.listing code.toProgram
      ↔ ∀ t ∈ code.targets, t ≤ code.length)
    ∧ Program.listing code''.toProgram = Program.listing code'.toProgram
  := by
  have hcount : code.length ≤ Number.maxSafe := by
    have := length_of_assemble hcode
    omega
  have hgood := isWellFormed_of_assemble hcode hcount
  have hwell : ∀ i ∈ code, i.IsWellFormed := fun i hi => (hgood i hi).1
  have hsafe : ∀ t ∈ code.targets, t ≤ Number.maxSafe := by
    intro t ht
    obtain ⟨i, hi, htarget⟩ := Code.mem_targets.mp ht
    apply (hgood i hi).2 t htarget
  have hclipped : ∀ t ∈ code.clip.targets, t ≤ Number.maxSafe := fun t ht =>
    Nat.le_trans (Code.le_of_mem_targets_clip ht) hcount
  refine ⟨code.clip, code.clip.clip, ?listing, ?again, ?fixed, ?fixed_again⟩
  case listing => apply assemble_listing_toProgram hwell hsafe
  case again => apply assemble_listing_toProgram (Code.isWellFormed_clip hwell) hclipped
  case fixed =>
    rw [← Code.clip_eq_self_iff]
    constructor
    · apply eq_of_listing_toProgram hclipped hsafe
    · intro h
      rw [h]
  case fixed_again => rw [Code.clip_clip]

/-- A jump to the end is listed as it is. -/
theorem listing_canonical_end :
  ∃ code', assemble (Program.listing (Code.toProgram [.jump 1])) = .ok code'
    ∧ Program.listing code'.toProgram = Program.listing (Code.toProgram [.jump 1])
  := by
  have hcode : assemble "jump 1" = .ok [.jump 1] := by decide +kernel
  obtain ⟨code', -, hcode', -, hfixed, -⟩ := listing_canonical hcode (by decide)
  refine ⟨code', hcode', hfixed.mpr ?_⟩
  decide

/-- A jump past the end is listed with a label that the listing puts at the end, and the listing of
the listing has another label there. -/
theorem listing_canonical_fails_past_end :
  ∃ code code', assemble "jump 7\n" = .ok code
    ∧ assemble (Program.listing code.toProgram) = .ok code'
    ∧ Program.listing code'.toProgram ≠ Program.listing code.toProgram
  := ⟨[.jump 7], [.jump 1], by decide +kernel, by decide +kernel, by decide +kernel⟩

end Assembly

end StackMachine
