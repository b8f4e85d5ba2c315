import Mathlib.Data.List.Nodup
import Mathlib.Data.Set.List
import StackMachine.Proofs.Assembly.Reading

/-!
# Lines of listings

The listing of code is read as a line of its label before each instruction to which some
jump leads, the line of the instruction, and a line of all the targets past the end.  A
target past the end may be named by the label of another position, if different targets have
different names.
-/

namespace StackMachine

/-! ### Targets -/

theorem Instruction.target?_map {τ υ : Type} (f : τ → υ) (i : Instruction τ) :
  (i.map f).target? = i.target?.map f
  := by
  cases i <;> rfl

/-- A target of an image is the image of a target. -/
theorem Instruction.exists_of_target?_map {τ υ : Type} {f : τ → υ} {i : Instruction τ} {u : υ}
    (h : (i.map f).target? = some u) :
  ∃ t, i.target? = some t ∧ f t = u
  := by
  rw [target?_map] at h
  exact Option.map_eq_some_iff.mp h

theorem Instruction.map_map {τ υ φ : Type} (f : τ → υ) (g : υ → φ) (i : Instruction τ) :
  (i.map f).map g = i.map fun t => g (f t)
  := by
  cases i <;> rfl

theorem Instruction.map_congr {τ υ : Type} {f g : τ → υ} {i : Instruction τ}
    (h : ∀ t, i.target? = some t → f t = g t) :
  i.map f = i.map g
  := by
  cases i with
  | jump target => rw [map, map, h target rfl]
  | jumpz target => rw [map, map, h target rfl]
  | _ => rfl

/-- Targets that are their own images leave an instruction as it is. -/
theorem Instruction.map_eq_self {τ : Type} {f : τ → τ} {i : Instruction τ}
    (h : ∀ t, i.target? = some t → f t = t) :
  i.map f = i
  := by
  have hid : i.map id = i := by
    cases i <;> rfl
  rw [map_congr h]
  apply hid

/-- The targets of the jumps of code. -/
def Code.targets (code : Code) : List Nat := code.filterMap Instruction.target?

theorem Code.mem_targets {code : Code} {t : Nat} :
  t ∈ code.targets ↔ ∃ i ∈ code, i.target? = some t
  := List.mem_filterMap

/-- The targets of code as a program are its targets as numbers. -/
theorem Program.targets_toProgram (code : Code) :
  Program.targets code.toProgram = code.targets.map Number.ofNat
  := by
  rw [Program.targets, Code.toProgram, Code.targets, List.filterMap_map, List.map_filterMap]
  congr 1
  funext i
  rw [Function.comp_apply, Instruction.target?_map, Option.map_map]
  rfl

/-- Each element of the list is kept once. -/
theorem nodup_eraseDups {α : Type} [BEq α] [LawfulBEq α] :
    ∀ l : List α, l.eraseDups.Nodup
  | [] => List.nodup_nil
  | a :: l => by
    rw [List.eraseDups_cons]
    apply List.nodup_cons.mpr
    constructor
    · rw [List.mem_eraseDups, List.mem_filter]
      rintro ⟨-, h⟩
      simp at h
    · apply nodup_eraseDups
termination_by l => l.length
decreasing_by
  have := List.length_filter_le (fun b => !b == a) l
  simp only [List.length_cons]
  omega

/-- The targets past the end of code, as numbers, are certain positions, each once. -/
theorem Program.trailing_toProgram (code : Code) :
  ∃ ts : List Nat, Program.trailing code.toProgram = ts.map Number.ofNat ∧ ts.Nodup
    ∧ ∀ t, t ∈ ts ↔ t ∈ code.targets ∧ code.length ≤ t
  := by
  have hmem (x : Number) : x ∈ Program.trailing code.toProgram
      ↔ ∃ t, t ∈ code.targets ∧ code.length ≤ t ∧ Number.ofNat t = x := by
    rw [Program.trailing, List.mem_mergeSort, List.mem_filter, List.mem_eraseDups,
      targets_toProgram, List.mem_map, Code.toProgram, List.length_map]
    constructor
    · rintro ⟨⟨t, ht, rfl⟩, hle⟩
      exact ⟨t, ht, Number.le_ofNat.mp hle, rfl⟩
    · rintro ⟨t, ht, hle, rfl⟩
      exact ⟨⟨t, ht, rfl⟩, Number.le_ofNat.mpr hle⟩
  have hnodup : (Program.trailing code.toProgram).Nodup := by
    rw [Program.trailing]
    apply (List.mergeSort_perm _ _).nodup_iff.mpr
    apply List.Nodup.filter
    apply nodup_eraseDups
  obtain ⟨ts, hts⟩ : Program.trailing code.toProgram ∈ Set.range (List.map Number.ofNat) := by
    rw [Set.range_list_map]
    intro x hx
    obtain ⟨t, -, -, rfl⟩ := (hmem x).mp hx
    use t
  rw [← hts] at hmem hnodup
  refine ⟨ts, hts.symm, hnodup.of_map, ?_⟩
  intro t
  have hinjective : Function.Injective Number.ofNat := fun _ _ => Number.ofNat_injective
  rw [← List.mem_map_of_injective hinjective, hmem]
  constructor
  · rintro ⟨u, hu, hle, h⟩
    rw [← Number.ofNat_injective h]
    exact ⟨hu, hle⟩
  · rintro ⟨ht, hle⟩
    exact ⟨t, ht, hle, rfl⟩

/-! ### Texts -/

/-- The label of a position up to the greatest safe integer is its decimal after a letter. -/
theorem Program.label_ofNat {t : Nat} (h : t ≤ Number.maxSafe) :
  Program.label (Number.ofNat t) = Code.label t
  := by
  have hle : (t : Int).natAbs ≤ Nat.pow 2 53 := Nat.le_trans h (by decide)
  rw [Program.label, Number.ofNat, Number.toText, if_pos hle]
  rfl

/-- The operation of an instruction whose target is named by the label of a position is the text
of the instruction that jumps to the position. -/
theorem Program.operation_map {i : Instruction Nat} {f : Nat → Nat}
    (h : ∀ t, i.target? = some t → Program.label (Number.ofNat t) = Code.label (f t)) :
  Program.operation (i.map Number.ofNat) = Assembly.operationOf (i.map f)
  := by
  cases i with
  | jump target =>
    have hlabel := h target rfl
    simp only [Program.operation, Instruction.map, Instruction.target?, hlabel]
    rfl
  | jumpz target =>
    have hlabel := h target rfl
    simp only [Program.operation, Instruction.map, Instruction.target?, hlabel]
    rfl
  | loadc value =>
    change Text.concat [Text.ofString "loadc ", Text.ofInt value] = _
    rw [Text.concat, List.flatten_cons, List.flatten_singleton]
    rfl
  | load | store | pop | new | halt | binary | unary => rfl

/-! ### Names of targets -/

/-- Code whose jumps lead to other positions. -/
def Code.relabel (f : Nat → Nat) (code : Code) : Code := code.map fun i => i.map f

theorem Code.length_relabel (f : Nat → Nat) (code : Code) :
  (code.relabel f).length = code.length
  := List.length_map _

/-- Jumps that lead where they led leave code as it is. -/
theorem Code.relabel_eq_self {f : Nat → Nat} {code : Code} (h : ∀ t ∈ code.targets, f t = t) :
  code.relabel f = code
  := by
  apply Eq.trans (List.map_congr_left _) (List.map_id' code)
  intro i hi
  apply Instruction.map_eq_self
  intro t ht
  apply h t (mem_targets.mpr ⟨i, hi, ht⟩)

theorem Code.relabel_id (code : Code) :
  code.relabel id = code
  := relabel_eq_self fun _ _ => rfl

theorem Code.targets_relabel (f : Nat → Nat) (code : Code) :
  (code.relabel f).targets = code.targets.map f
  := by
  rw [targets, relabel, targets, List.filterMap_map, List.map_filterMap]
  congr 1
  funext i
  apply Instruction.target?_map

/-- Positions whose labels name the targets of code in its listing: one position for each target,
which is the target itself if there is an instruction with that index. -/
structure Code.ListedBy (code : Code) (f : Nat → Nat) : Prop where
  label : ∀ t ∈ code.targets, Program.label (Number.ofNat t) = Code.label (f t)
  injOn : ∀ t ∈ code.targets, ∀ u ∈ code.targets, f t = f u → t = u
  inside : ∀ t ∈ code.targets, t < code.length → f t = t
  past : ∀ t ∈ code.targets, code.length ≤ t → code.length ≤ f t

/-- Targets up to the greatest safe integer are named by their own labels. -/
theorem Code.listedBy_id {code : Code} (hsafe : ∀ t ∈ code.targets, t ≤ Number.maxSafe) :
  code.ListedBy id
  := by
  constructor
  · intro t ht
    apply Program.label_ofNat (hsafe t ht)
  · intro t _ u _ h
    apply h
  · intro t _ _
    rfl
  · intro t _ h
    apply h

namespace Code.ListedBy

variable {code : Code} {f : Nat → Nat} (h : code.ListedBy f)

include h in
/-- The instructions that are targets stay the same. -/
theorem mem_targets_relabel {n : Nat} (hn : n < code.length) :
  n ∈ (code.relabel f).targets ↔ n ∈ code.targets
  := by
  rw [targets_relabel, List.mem_map]
  constructor
  · rintro ⟨t, ht, rfl⟩
    by_cases hlt : t < code.length
    · rw [h.inside t ht hlt]
      apply ht
    · have := h.past t ht (Nat.not_lt.mp hlt)
      omega
  · intro hmem
    exact ⟨n, hmem, h.inside n hmem hn⟩

include h in
/-- Positions that name the targets past the end name them once each, and are past the end. -/
theorem trailing {ts : List Nat} (hnodup : ts.Nodup)
    (hts : ∀ t, t ∈ ts ↔ t ∈ code.targets ∧ code.length ≤ t) :
  (ts.map f).Nodup
    ∧ ∀ t, t ∈ ts.map f ↔ t ∈ (code.relabel f).targets ∧ (code.relabel f).length ≤ t
  := by
  constructor
  · apply List.Nodup.map_on _ hnodup
    intro t ht u hu
    apply h.injOn t ((hts t).mp ht).1 u ((hts u).mp hu).1
  · intro t
    rw [targets_relabel, length_relabel, List.mem_map, List.mem_map]
    constructor
    · rintro ⟨u, hu, rfl⟩
      obtain ⟨hmem, hle⟩ := (hts u).mp hu
      exact ⟨⟨u, hmem, rfl⟩, h.past u hmem hle⟩
    · rintro ⟨⟨u, hmem, rfl⟩, hle⟩
      refine ⟨u, (hts u).mpr ⟨hmem, ?_⟩, rfl⟩
      by_contra hlt
      have := h.inside u hmem (Nat.not_le.mp hlt)
      omega

include h in
/-- Brought down to the end, the positions are the targets. -/
theorem min_eq {t : Nat} (ht : t ∈ code.targets) :
  min (f t) code.length = min t code.length
  := by
  by_cases hlt : t < code.length
  · rw [h.inside t ht hlt]
  · have := h.past t ht (Nat.not_lt.mp hlt)
    omega

end Code.ListedBy

namespace Assembly

/-! ### Lines -/

/-- The lines of code from a position on, with a line of its label before each instruction
whose position is labelled. -/
def linesFrom (isLabelled : Nat → Bool) : Nat → Code → List Line
  | _, [] => []
  | n, i :: code =>
    if isLabelled n then
      labelsLine [n] :: instructionLine i :: linesFrom isLabelled (n + 1) code
    else instructionLine i :: linesFrom isLabelled (n + 1) code

/-- The line of the labels past the end, if there are any. -/
def lastLines (labels : List Nat) : List Line := if labels = [] then [] else [labelsLine labels]

/-- The texts of code are read as its lines, if the same positions are labelled and each by its
label. -/
theorem forall₂_linesFrom {label : Nat → Text} {isLabelled isLabelled' : Nat → Bool} (code : Code)
    (n : Nat) (hsame : ∀ k, n ≤ k → k < n + code.length → isLabelled k = isLabelled' k)
    (hlabel : ∀ k, n ≤ k → k < n + code.length → isLabelled k = true → label k = Code.label k) :
  List.Forall₂ IsLine
    (((code.map operationOf).zipIdx n).flatMap fun (operation, n) =>
      let line := Text.ofString "  " ++ operation
      if isLabelled n then [Listing.labelLine (label n), line] else [line])
    (linesFrom isLabelled' n code)
  := by
  induction code generalizing n with
  | nil => apply List.Forall₂.nil
  | cons i code ih =>
    rw [List.length_cons] at hsame hlabel
    have htail := ih (n + 1) (fun k hk hlt => hsame k (by omega) (by omega))
      (fun k hk hlt => hlabel k (by omega) (by omega))
    have hfirst := hsame n (Nat.le_refl n) (by omega)
    rw [List.map_cons, List.zipIdx_cons, List.flatMap_cons, linesFrom, ← hfirst]
    by_cases hn : isLabelled n = true
    · have hline := isLine_labels [n]
      rw [List.map_singleton, Text.join, List.intercalate_singleton] at hline
      simp only [hn, if_true, hlabel n (Nat.le_refl n) (by omega) hn]
      apply List.Forall₂.cons hline
      apply List.Forall₂.cons (isLine_operation i)
      apply htail
    · simp only [hn]
      apply List.Forall₂.cons (isLine_operation i)
      apply htail

theorem forall₂_bodyLines {label : Nat → Text} {isLabelled isLabelled' : Nat → Bool} (code : Code)
    (hsame : ∀ n < code.length, isLabelled n = isLabelled' n)
    (hlabel : ∀ n < code.length, isLabelled n = true → label n = Code.label n) :
  List.Forall₂ IsLine (Listing.bodyLines label isLabelled (code.map operationOf))
    (linesFrom isLabelled' 0 code)
  := by
  apply forall₂_linesFrom
  · intro n _ hn
    apply hsame n (by omega)
  · intro n _ hn
    apply hlabel n (by omega)

/-- The texts that are put together as a listing. -/
def listedTexts (program : Program) : List Text :=
  let labels := (Program.trailing program).map Program.label
  Program.bodyLines program
    ++ if labels = [] then [] else [Text.join [0x20] (labels.map Listing.labelLine)]

theorem listing_eq (program : Program) :
  program.listing = Text.join [Text.lineFeed] (listedTexts program) ++ [Text.lineFeed]
  := rfl

/-- The texts of a listing of code are read as the lines of the code whose jumps lead to the
positions that name the targets, and the line of those past its end. -/
theorem forall₂_listedTexts {code : Code} {f : Nat → Nat} (h : code.ListedBy f) {ts : List Nat}
    (htrailing : Program.trailing code.toProgram = ts.map Number.ofNat)
    (hts : ∀ t ∈ ts, t ∈ code.targets) :
  List.Forall₂ IsLine (listedTexts code.toProgram)
    (linesFrom (fun n => n ∈ (code.relabel f).targets) 0 (code.relabel f) ++ lastLines (ts.map f))
  := by
  apply List.rel_append
  · have hoperations : code.toProgram.map Program.operation
        = (code.relabel f).map operationOf := by
      rw [Code.toProgram, Code.relabel, List.map_map, List.map_map]
      apply List.map_congr_left
      intro i hi
      apply Program.operation_map
      intro t ht
      apply h.label t (Code.mem_targets.mpr ⟨i, hi, ht⟩)
    have htarget (n : Nat) : Number.ofNat n ∈ Program.targets code.toProgram
        ↔ n ∈ code.targets := by
      rw [Program.targets_toProgram, List.mem_map_of_injective]
      intro t u htu
      apply Number.ofNat_injective htu
    simp only [Program.bodyLines, hoperations, htarget]
    apply forall₂_bodyLines
    · intro n hn
      rw [Code.length_relabel] at hn
      rw [decide_eq_decide]
      apply (h.mem_targets_relabel hn).symm
    · intro n hn hlabelled
      rw [Code.length_relabel] at hn
      have hmem := of_decide_eq_true hlabelled
      rw [h.label n hmem, h.inside n hmem hn]
  · have hlabels : (ts.map Number.ofNat).map Program.label = (ts.map f).map Code.label := by
      rw [List.map_map, List.map_map]
      apply List.map_congr_left
      intro t ht
      apply h.label t (hts t ht)
    rw [htrailing, hlabels, lastLines]
    generalize ts.map f = names
    rw [List.map_map]
    cases names with
    | nil => apply List.Forall₂.nil
    | cons t names =>
      apply List.Forall₂.cons (isLine_labels (t :: names))
      apply List.Forall₂.nil

end Assembly

end StackMachine
