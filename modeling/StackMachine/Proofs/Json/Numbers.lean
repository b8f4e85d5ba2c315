import Mathlib.Tactic.Common
import StackMachine.Json.Reader

/-!
# Numbers in JSON values

What holds of every number that is read as a token holds of every number in a value that is read:
the automaton on tokens keeps it of the values and of the frames around them.
-/

namespace StackMachine

namespace Json

variable {P : Number → Prop}

/-- A value all of whose numbers have a property. -/
inductive Holds (P : Number → Prop) : Json → Prop where
  | null : Holds P null
  | bool (b : Bool) : Holds P (bool b)
  | number {x : Number} (h : P x) : Holds P (number x)
  | string (t : Text) : Holds P (string t)
  | array {items : List Json} (h : ∀ v ∈ items, Holds P v) : Holds P (array items)
  | object {fields : List (Text × Json)} (h : ∀ f ∈ fields, Holds P f.2) : Holds P (object fields)

/-- A field of an object whose numbers have the property. -/
theorem Holds.get? {fields : Fields Json} (h : Holds P (.object fields)) {key : Text} {v : Json}
    (hv : fields.get? key = some v) :
  Holds P v
  := by
  cases h with
  | object h =>
    obtain ⟨before, after, rfl, -⟩ := List.lookup_eq_some_iff.mp hv
    apply h (key, v)
    simp

/-- A field more keeps the property. -/
theorem holds_insert {fields : Fields Json} (h : ∀ f ∈ fields, Holds P f.2) (key : Text) {v : Json}
    (hv : Holds P v) :
  ∀ f ∈ fields.insert key v, Holds P f.2
  := by
  intro f hf
  rw [Fields.insert] at hf
  split at hf
  · obtain ⟨g, hg, rfl⟩ := List.mem_map.mp hf
    split
    · exact hv
    · apply h g hg
  · split at hf
    · rcases List.mem_append.mp hf with hf | hf
      · apply h f hf
      · rw [List.mem_singleton.mp hf]
        exact hv
    · rcases List.mem_append.mp hf with hf | hf
      · apply h f ((List.takeWhile_subset _) hf)
      · rcases List.mem_cons.mp hf with rfl | hf
        · exact hv
        · apply h f ((List.dropWhile_subset _) hf)

/-! ### Tokens -/

/-- A token whose number, if it has one, has the property. -/
def Token.Holds (P : Number → Prop) : Token → Prop
  | .scalar v => Json.Holds P v
  | _ => True

/-- A scalar is a word of JSON or a numeral. -/
theorem scalar_of_token? {s rest : Text} {v : Json} (h : token? s = some (.scalar v, rest)) :
  literal? s = some (v, rest) ∨ ∃ x, v = .number x ∧ Number.json? s = some (x, rest)
  := by
  cases s with
  | nil => cases h
  | cons u r =>
    simp only [token?] at h
    -- the marks are no scalars
    iterate 6
      split at h
      · cases h
    split at h
    · obtain ⟨⟨t, r⟩, -, ⟨⟩⟩ := Option.map_eq_some_iff.mp h
    · split at h
      · next hliteral =>
        cases h
        left
        exact hliteral
      · obtain ⟨⟨x, r⟩, hx, ⟨⟩⟩ := Option.map_eq_some_iff.mp h
        right
        exact ⟨x, rfl, hx⟩

theorem holds_literal? {s rest : Text} {v : Json} (h : literal? s = some (v, rest)) :
  Holds P v
  := by
  obtain ⟨⟨word, value⟩, hmem, h⟩ := List.exists_of_findSome?_eq_some h
  simp only at h
  split at h
  · cases h
    simp only [literals, List.mem_cons, Prod.mk.injEq, List.not_mem_nil, or_false] at hmem
    rcases hmem with ⟨-, rfl⟩ | ⟨-, rfl⟩ | ⟨-, rfl⟩
    · apply Holds.bool
    · apply Holds.bool
    · apply Holds.null
  · cases h

section

variable (hP : ∀ s x rest, Number.json? s = some (x, rest) → P x)

include hP in
theorem holds_token? {s rest : Text} {t : Token} (h : token? s = some (t, rest)) :
  t.Holds P
  := by
  cases t with
  | scalar v =>
    rcases scalar_of_token? h with hliteral | ⟨x, rfl, hx⟩
    · apply holds_literal? hliteral
    · apply Json.Holds.number (hP s x rest hx)
  | _ => trivial

include hP in
theorem holds_tokens? {s : Text} {ts : List Token} (h : tokens? s = some ts) :
  ∀ t ∈ ts, t.Holds P
  := by
  fun_induction tokens? s generalizing ts with
  | case1 =>
    cases h
    simp
  | case2 => cases h
  | case3 s u r hs token rest htoken ih =>
    obtain ⟨more, hmore, rfl⟩ := Option.map_eq_some_iff.mp h
    exact List.forall_mem_cons.mpr ⟨holds_token? hP htoken, ih hmore⟩

end

/-! ### States -/

/-- A frame all of whose numbers have a property. -/
def Frame.Holds (P : Number → Prop) : Frame → Prop
  | array items => ∀ v ∈ items, Json.Holds P v
  | object fields _ => ∀ f ∈ fields, Json.Holds P f.2

/-- A state all of whose numbers have a property. -/
def State.Holds (P : Number → Prop) : State → Prop
  | value frames => ∀ f ∈ frames, f.Holds P
  | firstItem frames => ∀ f ∈ frames, f.Holds P
  | firstKey frames => ∀ f ∈ frames, f.Holds P
  | key fields frames => (∀ f ∈ fields, Json.Holds P f.2) ∧ ∀ f ∈ frames, f.Holds P
  | colon fields _ frames => (∀ f ∈ fields, Json.Holds P f.2) ∧ ∀ f ∈ frames, f.Holds P
  | after done frames => Json.Holds P done ∧ ∀ f ∈ frames, f.Holds P

theorem holds_begin? {frames : List Frame} (hframes : ∀ f ∈ frames, f.Holds P) {t : Token}
    (ht : t.Holds P) {s : State} (h : State.begin? frames t = some s) :
  s.Holds P
  := by
  cases t with
  | beginArray | beginObject =>
    cases h
    exact hframes
  | string t =>
    cases h
    exact ⟨Json.Holds.string t, hframes⟩
  | scalar v =>
    cases h
    exact ⟨ht, hframes⟩
  | endArray | endObject | comma | colon => cases h

/-- A token keeps the property. -/
theorem holds_step {s s' : State} (hs : s.Holds P) {t : Token} (ht : t.Holds P)
    (h : s.step t = some s') :
  s'.Holds P
  := by
  cases s with
  | value frames => apply holds_begin? hs ht h
  | firstItem frames =>
    have hbegin (h : State.begin? (.array [] :: frames) t = some s') : s'.Holds P := by
      apply holds_begin? _ ht h
      apply List.forall_mem_cons.mpr ⟨_, hs⟩
      intro v hv
      cases hv
    cases t with
    | endArray =>
      cases h
      refine ⟨Json.Holds.array ?_, hs⟩
      intro v hv
      cases hv
    | _ => apply hbegin h
  | firstKey frames =>
    cases t <;> cases h
    · refine ⟨Json.Holds.object ?_, hs⟩
      intro f hf
      cases hf
    · refine ⟨?_, hs⟩
      intro f hf
      cases hf
  | key fields frames =>
    cases t <;> cases h
    exact hs
  | colon fields k frames =>
    cases t <;> cases h
    exact List.forall_mem_cons.mpr hs
  | after v frames =>
    cases frames with
    | nil => cases t <;> cases h
    | cons frame frames =>
      obtain ⟨hframe, hframes⟩ := List.forall_mem_cons.mp hs.2
      cases frame with
      | array items =>
        have hitems : ∀ w ∈ v :: items, Json.Holds P w :=
          List.forall_mem_cons.mpr ⟨hs.1, hframe⟩
        cases t <;> cases h
        · refine ⟨Json.Holds.array ?_, hframes⟩
          intro w hw
          apply hitems w (List.mem_reverse.mp hw)
        · exact List.forall_mem_cons.mpr ⟨hitems, hframes⟩
      | object fields k =>
        have hfields := holds_insert hframe k hs.1
        cases t <;> cases h
        · exact ⟨Json.Holds.object hfields, hframes⟩
        · exact ⟨hfields, hframes⟩

theorem holds_foldlM {ts : List Token} (hts : ∀ t ∈ ts, t.Holds P) {s s' : State} (hs : s.Holds P)
    (h : ts.foldlM State.step s = some s') :
  s'.Holds P
  := by
  induction ts generalizing s with
  | nil =>
    cases h
    exact hs
  | cons t ts ih =>
    obtain ⟨ht, hts⟩ := List.forall_mem_cons.mp hts
    rw [List.foldlM_cons] at h
    obtain ⟨s'', hstep, h⟩ := Option.bind_eq_some_iff.mp h
    apply ih hts (holds_step hs ht hstep) h

/-- What holds of every numeral that is read holds of every number in a value that is read. -/
theorem holds_parse? (hP : ∀ s x rest, Number.json? s = some (x, rest) → P x) {s : Text} {v : Json}
    (h : parse? s = some v) :
  Holds P v
  := by
  obtain ⟨ts, hts, h⟩ := Option.bind_eq_some_iff.mp h
  obtain ⟨s', hfold, h⟩ := Option.bind_eq_some_iff.mp h
  have hstate : s'.Holds P := by
    apply holds_foldlM (holds_tokens? hP hts) _ hfold
    intro f hf
    cases hf
  cases s' with
  | after done frames =>
    cases frames with
    | nil =>
      cases h
      exact hstate.1
    | cons frame frames => cases h
  | _ => cases h

end Json

end StackMachine
