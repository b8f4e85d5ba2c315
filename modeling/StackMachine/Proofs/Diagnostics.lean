import Mathlib.Data.List.Basic
import StackMachine.Diagnostic
import StackMachine.Proofs.Number.Integers

/-!
# Diagnostics about elements

The elements of a list are inspected one after the other, and each inspection yields diagnostics
about its element.  All of them together are about exactly the elements that yield some, in the
order of the list.
-/

namespace StackMachine

/-- Diagnostics are about the elements with some indices, in this order. -/
def AreAbout (diagnostics : List Diagnostic) (indices : List Nat) : Prop :=
  diagnostics.map Diagnostic.index = indices.map fun i => some (Number.ofNat i)

/-- Diagnostics are about certain elements only. -/
theorem AreAbout.unique {diagnostics : List Diagnostic} {indices indices' : List Nat}
    (h : AreAbout diagnostics indices) (h' : AreAbout diagnostics indices') :
  indices = indices'
  := by
  have hinjective : Function.Injective fun i => some (Number.ofNat i) := fun _ _ hij =>
    Number.ofNat_injective (Option.some.inj hij)
  apply List.map_injective_iff.mpr hinjective
  exact h.symm.trans h'

section

variable {α : Type} (inspect : α → Nat → List Diagnostic) (items : List α)

/-- The indices of the elements about which there are diagnostics, each once for every
diagnostic. -/
def blamed : List Nat :=
  items.zipIdx.flatMap fun p => List.replicate (inspect p.1 p.2).length p.2

theorem mem_blamed {i : Nat} :
  i ∈ blamed inspect items ↔ ∃ a, items[i]? = some a ∧ inspect a i ≠ []
  := by
  rw [blamed, List.mem_flatMap]
  constructor
  · rintro ⟨⟨a, j⟩, ha, hi⟩
    obtain ⟨hne, rfl⟩ := List.mem_replicate.mp hi
    use a, List.mk_mem_zipIdx_iff_getElem?.mp ha
    apply List.ne_nil_of_length_pos (Nat.pos_of_ne_zero hne)
  · rintro ⟨a, ha, hne⟩
    use (a, i), List.mk_mem_zipIdx_iff_getElem?.mpr ha
    apply List.mem_replicate.mpr ⟨_, rfl⟩
    apply Nat.ne_of_gt (List.length_pos_of_ne_nil hne)

theorem areAbout_blamed (hindex : ∀ a i, ∀ d ∈ inspect a i, d.index = some (.ofNat i)) :
  AreAbout (items.zipIdx.flatMap fun p => inspect p.1 p.2) (blamed inspect items)
  := by
  rw [AreAbout, blamed, List.map_flatMap, List.map_flatMap]
  congr 1
  funext p
  rw [List.map_replicate, ← List.map_const']
  apply List.map_congr_left (hindex p.1 p.2)

variable {inspect}

/-- The indices are in every order in which a smaller index comes before a greater one, and in
which an index may come before itself if some inspection yields several diagnostics. -/
theorem pairwise_blamed {R : Nat → Nat → Prop} (hlt : ∀ i j, i < j → R i j)
    (hself : ∀ a i, (inspect a i).length ≤ 1 ∨ R i i) :
  (blamed inspect items).Pairwise R
  := by
  have hsorted : (items.zipIdx.map Prod.snd).Pairwise (· < ·) := by
    rw [List.zipIdx_map_snd]
    exact List.pairwise_lt_range' 1
  rw [blamed, List.pairwise_flatMap]
  constructor
  · intro p _
    apply List.pairwise_replicate.mpr (hself p.1 p.2)
  · apply (List.pairwise_map.mp hsorted).imp
    intro p q hpq i hi j hj
    rw [List.eq_of_mem_replicate hi, List.eq_of_mem_replicate hj]
    apply hlt _ _ hpq

end

/-- Where at most one thing is found about an element, the diagnostics are about different elements,
in the order of the list. -/
theorem exists_areAbout_filterMap {α β : Type} (find : α → Option β) {tell : Nat → β → Diagnostic}
    (hindex : ∀ i b, (tell i b).index = some (.ofNat i)) (items : List α) :
  ∃ indices, AreAbout (items.zipIdx.filterMap fun p => (find p.1).map (tell p.2)) indices
    ∧ indices.Pairwise (· < ·)
    ∧ ∀ i, i ∈ indices ↔ ∃ a, items[i]? = some a ∧ find a ≠ none
  := by
  use blamed (fun a i => ((find a).map (tell i)).toList) items
  refine ⟨?_, ?_, ?_⟩
  · rw [List.filterMap_eq_flatMap_toList]
    apply areAbout_blamed (fun a i => ((find a).map (tell i)).toList)
    intro a i d hd
    obtain ⟨b, -, rfl⟩ := Option.map_eq_some_iff.mp (Option.mem_toList.mp hd)
    apply hindex
  · apply pairwise_blamed items fun _ _ hij => hij
    intro a i
    left
    apply Option.length_toList_le
  · intro i
    rw [mem_blamed]
    simp only [ne_eq, Option.toList_eq_nil_iff, Option.map_eq_none_iff]

end StackMachine
