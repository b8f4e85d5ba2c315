import Mathlib.Data.List.Nodup
import Mathlib.Data.List.TakeWhile
import Mathlib.Tactic.Common
import StackMachine.Fields

/-!
# Fields of a record

Something is found under a key exactly if the key is listed.  A value that is set under a key is
found there and changes what is found nowhere else.  Two records in which the same is found have
the same keys, whatever the order of their fields.
-/

namespace StackMachine

namespace Fields

variable {α : Type} {fields : Fields α} {key : Text}

theorem get?_cons (k : Text) (v : α) (fields : Fields α) (key : Text) :
  get? ((k, v) :: fields) key = if key = k then some v else get? fields key
  := by
  rw [get?, List.lookup_cons]
  by_cases h : key = k
  · rw [if_pos h, beq_iff_eq.mpr h]
  · rw [if_neg h, beq_eq_false_iff_ne.mpr h]
    rfl

/-- Nothing is found under a key that is not listed. -/
theorem get?_of_not_mem (h : key ∉ keys fields) :
  get? fields key = none
  := by
  induction fields with
  | nil => rfl
  | cons f fields ih =>
    obtain ⟨k, v⟩ := f
    obtain ⟨hne, h⟩ := not_or.mp (mt List.mem_cons.mpr h)
    rw [get?_cons, if_neg hne, ih h]

/-- Something is found under a key exactly if the key is listed. -/
theorem mem_keys_iff :
  key ∈ keys fields ↔ ∃ v, get? fields key = some v
  := by
  constructor
  · intro h
    induction fields with
    | nil => cases h
    | cons f fields ih =>
      obtain ⟨k, v⟩ := f
      rw [get?_cons]
      by_cases hk : key = k
      · rw [if_pos hk]
        exact ⟨v, rfl⟩
      · rw [if_neg hk]
        apply ih ((List.mem_cons.mp h).resolve_left hk)
  · rintro ⟨v, hv⟩
    by_contra h
    rw [get?_of_not_mem h] at hv
    cases hv

/-- What is found under a key is listed with it; the converse holds if no key is listed twice. -/
theorem mem_of_get? {v : α} (h : get? fields key = some v) :
  (key, v) ∈ fields
  := by
  obtain ⟨before, behind, rfl, -⟩ := List.lookup_eq_some_iff.mp h
  apply List.mem_append_right
  apply List.mem_cons_self

theorem get?_of_mem (hkeys : (keys fields).Nodup) {v : α} (h : (key, v) ∈ fields) :
  get? fields key = some v
  := by
  obtain ⟨w, hw⟩ := mem_keys_iff.mp (List.mem_map_of_mem h)
  have hpair := List.inj_on_of_nodup_map hkeys (mem_of_get? hw) h rfl
  cases hpair
  exact hw

/-- The same is found in two records if the same is found under the keys of one, and the other has
no further keys. -/
theorem get?_eq_iff {entries : Fields α} :
  (∀ key, get? fields key = get? entries key)
    ↔ (∀ key ∈ keys entries, get? fields key = get? entries key)
      ∧ ∀ key ∈ keys fields, key ∈ keys entries
  := by
  constructor
  · intro h
    use fun key _ => h key
    intro key hkey
    rw [mem_keys_iff, ← h]
    apply mem_keys_iff.mp hkey
  · rintro ⟨hsame, hkeys⟩ key
    by_cases hkey : key ∈ keys entries
    · apply hsame key hkey
    · rw [get?_of_not_mem hkey, get?_of_not_mem (mt (hkeys key) hkey)]

/-- What is found in fields with a new one among them. -/
theorem get?_between {k : Text} {before : Fields α} (h : k ∉ keys before) (v : α)
    (behind : Fields α) (key : Text) :
  get? (before ++ (k, v) :: behind) key
    = if key = k then some v else get? (before ++ behind) key
  := by
  rw [get?, List.lookup_append, get?, List.lookup_append]
  change (get? before key).or (get? ((k, v) :: behind) key) = _
  rw [get?_cons]
  by_cases hkey : key = k
  · rw [if_pos hkey, if_pos hkey, hkey, get?_of_not_mem h]
    rfl
  · rw [if_neg hkey, if_neg hkey]
    rfl

/-- The value of a key that is replaced. -/
theorem get?_replace_self (h : key ∈ keys fields) (v : α) :
  get? (fields.map fun f => if f.1 = key then (key, v) else f) key = some v
  := by
  induction fields with
  | nil => cases h
  | cons f fields ih =>
    obtain ⟨k, w⟩ := f
    rw [List.map_cons]
    by_cases hk : k = key
    · rw [if_pos hk, get?_cons, if_pos rfl]
    · rw [if_neg hk, get?_cons, if_neg (Ne.symm hk)]
      apply ih ((List.mem_cons.mp h).resolve_left (Ne.symm hk))

/-- The values of the other keys stay. -/
theorem get?_replace_of_ne {k : Text} (h : key ≠ k) (fields : Fields α) (v : α) :
  get? (fields.map fun f => if f.1 = k then (k, v) else f) key = get? fields key
  := by
  induction fields with
  | nil => rfl
  | cons f fields ih =>
    obtain ⟨k', w⟩ := f
    rw [List.map_cons, get?_cons]
    by_cases hk : k' = k
    · rw [if_pos hk, get?_cons, if_neg h, if_neg (hk ▸ h), ih]
    · rw [if_neg hk, get?_cons, ih]

/-- What is found after a value has been set under a key. -/
theorem get?_insert (fields : Fields α) (k : Text) (v : α) (key : Text) :
  get? (fields.insert k v) key = if key = k then some v else get? fields key
  := by
  rw [insert]
  split
  · next hk =>
    have hk : k ∈ keys fields := List.contains_iff_mem.mp hk
    by_cases hkey : key = k
    · rw [if_pos hkey, hkey, get?_replace_self hk]
    · rw [if_neg hkey, get?_replace_of_ne hkey]
  · next hk =>
    have hk : k ∉ keys fields := fun h => hk (List.contains_iff_mem.mpr h)
    cases k.toIndex? with
    | none =>
      simp only
      rw [get?_between hk, List.append_nil]
    | some i =>
      have hbefore : k ∉ keys (fields.takeWhile fun f => precedes i f.1) := fun h =>
        hk ((List.takeWhile_sublist _).map _ |>.mem h)
      simp only
      rw [get?_between hbefore, List.takeWhile_append_dropWhile]

theorem keys_replace (fields : Fields α) (k : Text) (v : α) :
  keys (fields.map fun f => if f.1 = k then (k, v) else f) = keys fields
  := by
  rw [keys, List.map_map]
  apply List.map_congr_left
  intro f _
  rw [Function.comp_apply]
  split
  · next h => exact h.symm
  · rfl

/-- Setting a value under a key lists no key twice. -/
theorem nodup_keys_insert (h : (keys fields).Nodup) (k : Text) (v : α) :
  (keys (fields.insert k v)).Nodup
  := by
  rw [insert]
  split
  · rw [keys_replace]
    exact h
  · next hk =>
    have hk : k ∉ keys fields := fun h => hk (List.contains_iff_mem.mpr h)
    cases k.toIndex? with
    | none =>
      simp only
      rw [keys, List.map_append, List.map_singleton, ← List.concat_eq_append]
      apply List.Nodup.concat hk h
    | some i =>
      simp only
      rw [keys, List.map_append, List.map_cons, List.nodup_middle, ← List.map_append,
        List.takeWhile_append_dropWhile]
      exact List.nodup_cons.mpr ⟨hk, h⟩

end Fields

end StackMachine
