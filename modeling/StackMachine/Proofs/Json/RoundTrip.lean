import Mathlib.Data.List.Nodup
import StackMachine.Proofs.Json.Numerals

/-!
# JSON round trip

A value whose numbers are integers and whose keys keep their places is written as a text that reads
back as the value.  Cutting a text into tokens and running the automaton on them are
followed together, token by token, so that what a value is written as takes a state in which the
value is due to the one in which it is finished.  No such text has a control, so it is one line.
-/

namespace StackMachine

namespace Json

/-- A value that can be written without loss: its numbers are integers, the keys of its objects are
different from each other, and none of them is a position. -/
inductive IsExact : Json → Prop where
  | null : IsExact null
  | bool (b : Bool) : IsExact (bool b)
  | int {n : Int} (h : Number.IsFloat n.natAbs) : IsExact (number (.int n))
  | string (t : Text) : IsExact (string t)
  | array {items : List Json} (h : ∀ v ∈ items, IsExact v) : IsExact (array items)
  | object {fields : List (Text × Json)} (hkeys : (Fields.keys fields).Nodup)
      (hindex : ∀ k ∈ Fields.keys fields, k.toIndex? = none)
      (h : ∀ f ∈ fields, IsExact f.2) : IsExact (object fields)

theorem isExact_ofNat {n : Nat} (h : Number.IsFloat n) :
  (ofNat n).IsExact
  := .int h

theorem isExact_ofNat_of_le {n : Nat} (h : n ≤ Number.maxSafe) :
  (ofNat n).IsExact
  := isExact_ofNat (Number.isFloat_of_le (Nat.le_trans h (by decide)))

/-- An object with exact fields, whose keys can be compared one by one. -/
theorem isExact_object {fields : List (Text × Json)}
    (hkeys : decide (Fields.keys fields).Nodup && (Fields.keys fields).all (·.toIndex?.isNone))
    (h : ∀ f ∈ fields, f.2.IsExact) :
  (object fields).IsExact
  := by
  obtain ⟨hnodup, hindex⟩ := Bool.and_eq_true_iff.mp hkeys
  apply IsExact.object (of_decide_eq_true hnodup) _ h
  intro k hk
  apply Option.isNone_iff_eq_none.mp (List.all_eq_true.mp hindex k hk)

variable {v : Json} {s : State} {rest : Text} {frames : List Frame}

/-! ### Token by token -/

/-- The state after the tokens of a text. -/
def State.run (s : State) (text : Text) : Option State :=
  (tokens? text).bind fun ts => ts.foldlM State.step s

theorem parse?_eq (text : Text) :
  parse? text = ((State.value []).run text).bind State.finished?
  := by
  rw [parse?, State.run, Option.bind_assoc]
  rfl

namespace State

theorem run_nil (s : State) :
  s.run [] = some s
  := by
  rw [run, tokens?]
  rfl

/-- The tokens of a text that does not begin with a blank. -/
theorem tokens?_of_token {u : CodeUnit} {r rest : Text} {t : Token} (hu : isSpace u = false)
    (ht : token? (u :: r) = some (t, rest)) :
  tokens? (u :: r) = (tokens? rest).map (t :: ·)
  := by
  have hblanks : (u :: r).dropWhile isSpace = u :: r :=
    List.dropWhile_cons_of_neg (by simp [hu])
  rw [tokens?.eq_def]
  split
  · next hnil =>
    rw [hblanks] at hnil
    cases hnil
  · next hcons =>
    rw [hblanks] at hcons
    cases hcons
    split
    · next hnone =>
      rw [ht] at hnone
      cases hnone
    · next hsome =>
      rw [ht] at hsome
      cases hsome
      rfl

/-- The first token of a text leads to the state in which the others are read. -/
theorem run_token {u : CodeUnit} {r rest : Text} {t : Token} (hu : isSpace u = false)
    (ht : token? (u :: r) = some (t, rest)) (s : State) :
  s.run (u :: r) = (s.step t).bind (·.run rest)
  := by
  simp only [run, tokens?_of_token hu ht]
  cases tokens? rest with
  | none => cases s.step t <;> rfl
  | some ts => rfl

theorem run_quoted (s : State) (t rest : Text) :
  s.run (quoted t ++ rest) = (s.step (.string t)).bind (·.run rest)
  := by
  have htext : quoted t ++ rest = 0x22 :: (t.escape escape ++ 0x22 :: rest) := by
    simp [quoted]
  have htoken : token? (0x22 :: (t.escape escape ++ 0x22 :: rest)) = some (.string t, rest) := by
    change (stringBody? (t.escape escape ++ 0x22 :: rest)).map (Prod.map Token.string id) = _
    rw [stringBody?_escape]
    rfl
  rw [htext, run_token rfl htoken]

/-! ### Values -/

/-- A state in which a value is due inside of frames, whatever else may come. -/
def Awaits (s : State) (frames : List Frame) : Prop :=
  ∀ t, t ≠ .endArray → s.step t = begin? frames t

theorem awaits_value (frames : List Frame) :
  (value frames).Awaits frames
  := fun _ _ => rfl

theorem awaits_firstItem (frames : List Frame) :
  (firstItem frames).Awaits (.array [] :: frames)
  := by
  intro t ht
  cases t with
  | endArray => contradiction
  | _ => rfl

/-- A text takes every state in which a value is due to the one in which the value is finished,
whatever comes next. -/
def Finishes (v : Json) (text : Text) : Prop :=
  ∀ (s : State) (frames : List Frame) (rest : Text), s.Awaits frames → Number.Ends rest →
    s.run (text ++ rest) = (after v frames).run rest

/-- The end of an array, the end of an object and a comma end a numeral as well. -/
theorem ends_cons {u : CodeUnit} (hu : u = 0x2C ∨ u = 0x5D ∨ u = 0x7D) (rest : Text) :
  Number.Ends (u :: rest)
  := by
  rcases hu with rfl | rfl | rfl <;> constructor <;> rfl

/-- A token that is a value by itself. -/
theorem finishes_scalar {u : CodeUnit} {r : Text} (hu : isSpace u = false)
    (ht : ∀ rest, Number.Ends rest → token? (u :: (r ++ rest)) = some (.scalar v, rest)) :
  Finishes v (u :: r)
  := by
  intro s frames rest hs hrest
  rw [List.cons_append, run_token hu (ht rest hrest), hs _ (by rintro ⟨⟩)]
  rfl

theorem finishes_null :
  Finishes .null "null"
  := finishes_scalar (u := 0x6E) rfl fun _ _ => rfl

theorem finishes_bool (b : Bool) :
  Finishes (.bool b) (compact (.bool b))
  := by
  cases b with
  | false => exact finishes_scalar (u := 0x66) rfl fun _ _ => rfl
  | true => exact finishes_scalar (u := 0x74) rfl fun _ _ => rfl

theorem finishes_int {n : Int} (h : Number.IsFloat n.natAbs) :
  Finishes (.number (.int n)) (Number.int n).toText
  := by
  obtain ⟨u, r, hu, hclass, -⟩ := Number.exists_cons_toText_int h
  have hread {rest} (hrest : Number.Ends rest) := Number.json?_toText h hrest
  rw [hu] at hread ⊢
  apply finishes_scalar (isSpace_of_numeral hclass)
  intro rest hrest
  rw [token?_of_numeral hclass, ← List.cons_append, hread hrest]
  rfl

theorem finishes_string (t : Text) :
  Finishes (.string t) (quoted t)
  := by
  intro s frames rest hs _
  rw [run_quoted, hs _ (by rintro ⟨⟩)]
  rfl

/-- The items of an array after those that are known, and the end of the array. -/
theorem run_items {items : List Json} (hne : items ≠ [])
    (hitems : ∀ v ∈ items, Finishes v v.compact) {done : List Json}
    (hs : s.Awaits (.array done :: frames)) :
  s.run (compactItems items ++ 0x5D :: rest)
    = (after (.array (done.reverse ++ items)) frames).run rest
  := by
  induction items generalizing s done with
  | nil => contradiction
  | cons v items ih =>
    obtain ⟨hv, hitems⟩ := List.forall_mem_cons.mp hitems
    cases items with
    | nil =>
      rw [compactItems, hv s _ _ hs (ends_cons (by simp) rest), run_token (t := .endArray) rfl rfl]
      change (after (.array (v :: done).reverse) frames).run rest = _
      rw [List.reverse_cons]
    | cons w items =>
      -- behind the comma a value is due again, inside the array with one item more
      rw [compactItems, List.append_assoc, List.cons_append, hv s _ _ hs (ends_cons (by simp) _),
        run_token (t := .comma) rfl rfl]
      change (value (.array (v :: done) :: frames)).run _ = _
      rw [ih (List.cons_ne_nil w items) hitems (awaits_value _), List.reverse_cons,
        List.append_assoc]
      rfl

/-- A new key that is no position comes behind the others. -/
theorem insert_of_not_mem {fields : Fields Json} {k : Text} (hk : k ∉ Fields.keys fields)
    (hindex : k.toIndex? = none) (v : Json) :
  fields.insert k v = fields ++ [(k, v)]
  := by
  rw [Fields.insert, if_neg (by simpa using hk)]
  simp only [hindex]

/-- A field of an object, where a key is due. -/
theorem run_field {k : Text} (hv : Finishes v v.compact) {done : Fields Json}
    (hs : ∀ k, s.step (.string k) = some (colon done k frames)) (hrest : Number.Ends rest) :
  s.run (quoted k ++ 0x3A :: (v.compact ++ rest)) = (after v (.object done k :: frames)).run rest
  := by
  rw [run_quoted, hs]
  change (colon done k frames).run _ = _
  rw [run_token (t := .colon) rfl rfl]
  apply hv _ _ _ (awaits_value _) hrest

/-- The fields of an object after those that are known, and the end of the object. -/
theorem run_fields {fields : List (Text × Json)} (hne : fields ≠ [])
    (hfields : ∀ f ∈ fields, Finishes f.2 f.2.compact) {done : Fields Json}
    (hs : ∀ k, s.step (.string k) = some (colon done k frames))
    (hkeys : (Fields.keys (done ++ fields)).Nodup)
    (hindex : ∀ k ∈ Fields.keys fields, k.toIndex? = none) :
  s.run (compactFields fields ++ 0x7D :: rest)
    = (after (.object (done ++ fields)) frames).run rest
  := by
  induction fields generalizing s done with
  | nil => contradiction
  | cons f fields ih =>
    obtain ⟨k, v⟩ := f
    obtain ⟨hv, hfields⟩ := List.forall_mem_cons.mp hfields
    obtain ⟨hk, hindex⟩ := List.forall_mem_cons.mp hindex
    have hdone : done ++ (k, v) :: fields = done.insert k v ++ fields := by
      rw [insert_of_not_mem _ hk, List.append_assoc]
      · rfl
      · rw [Fields.keys, List.map_append, List.map_cons, List.nodup_middle, List.nodup_cons,
          List.mem_append, not_or] at hkeys
        apply hkeys.1.1
    rw [hdone] at hkeys ⊢
    cases fields with
    | nil =>
      rw [compactFields, List.append_assoc, List.cons_append,
        run_field hv hs (ends_cons (by simp) rest), run_token (t := .endObject) rfl rfl,
        List.append_nil]
      rfl
    | cons w fields =>
      rw [compactFields, List.append_assoc, List.append_assoc, List.cons_append, List.cons_append,
        run_field hv hs (ends_cons (by simp) _), run_token (t := .comma) rfl rfl]
      apply ih (List.cons_ne_nil w fields) hfields (fun _ => rfl) hkeys hindex

end State

open State

/-- An exact value is finished by the text that it is written as. -/
theorem IsExact.finishes (h : IsExact v) :
  Finishes v v.compact
  := by
  induction h with
  | null => apply finishes_null
  | bool b => apply finishes_bool
  | int h => apply finishes_int h
  | string t => apply finishes_string
  | @array items _ ih =>
    intro s frames rest hs hrest
    rw [compact, List.append_assoc, List.append_assoc, List.singleton_append, List.singleton_append,
      run_token (t := .beginArray) rfl rfl, hs _ (by rintro ⟨⟩)]
    change (firstItem frames).run (compactItems items ++ 0x5D :: rest) = _
    cases items with
    | nil =>
      rw [compactItems, List.nil_append, run_token (t := .endArray) rfl rfl]
      rfl
    | cons v items => apply run_items (List.cons_ne_nil v items) ih (awaits_firstItem frames)
  | @object fields hkeys hindex _ ih =>
    intro s frames rest hs hrest
    rw [compact, List.append_assoc, List.append_assoc, List.singleton_append, List.singleton_append,
      run_token (t := .beginObject) rfl rfl, hs _ (by rintro ⟨⟩)]
    change (firstKey frames).run (compactFields fields ++ 0x7D :: rest) = _
    cases fields with
    | nil =>
      rw [compactFields, List.nil_append, run_token (t := .endObject) rfl rfl]
      rfl
    | cons f fields =>
      have hkey (k : Text) : (firstKey frames).step (.string k) = some (colon [] k frames) := rfl
      apply run_fields (List.cons_ne_nil f fields) ih hkey hkeys hindex

/-- An exact value reads back as itself from the text that it is written as. -/
theorem IsExact.parse? (h : IsExact v) :
  parse? v.compact = some v
  := by
  have hrun := h.finishes (.value []) [] [] (awaits_value []) ⟨rfl, rfl, rfl⟩
  rw [List.append_nil, run_nil] at hrun
  rw [parse?_eq, hrun]
  rfl

/-! ### Texts without controls -/

theorem isPrintable_compactItems {items : List Json}
    (h : ∀ v ∈ items, v.compact.all CodeUnit.isPrintable = true) :
  (compactItems items).all CodeUnit.isPrintable = true
  := by
  induction items with
  | nil => rfl
  | cons v items ih =>
    obtain ⟨hv, hitems⟩ := List.forall_mem_cons.mp h
    cases items with
    | nil => apply hv
    | cons w items =>
      rw [compactItems, List.all_append, List.all_cons, hv, ih hitems]
      rfl

theorem isPrintable_compactFields {fields : List (Text × Json)}
    (h : ∀ f ∈ fields, f.2.compact.all CodeUnit.isPrintable = true) :
  (compactFields fields).all CodeUnit.isPrintable = true
  := by
  induction fields with
  | nil => rfl
  | cons f fields ih =>
    obtain ⟨k, v⟩ := f
    obtain ⟨hv, hfields⟩ := List.forall_mem_cons.mp h
    cases fields with
    | nil =>
      rw [compactFields, List.all_append, List.all_cons, isPrintable_quoted, hv]
      rfl
    | cons w fields =>
      rw [compactFields, List.all_append, List.all_append, List.all_cons, List.all_cons,
        isPrintable_quoted, hv, ih hfields]
      rfl

/-- An exact value is written without controls, so in particular on one line. -/
theorem IsExact.isPrintable (h : IsExact v) :
  v.compact.all CodeUnit.isPrintable = true
  := by
  induction h with
  | null => rfl
  | bool b => cases b <;> rfl
  | int h =>
    obtain ⟨-, -, -, -, hall⟩ := Number.exists_cons_toText_int h
    apply hall
  | string t => apply isPrintable_quoted
  | array _ ih =>
    rw [compact, List.all_append, List.all_append, isPrintable_compactItems ih]
    rfl
  | object _ _ _ ih =>
    rw [compact, List.all_append, List.all_append, isPrintable_compactFields ih]
    rfl

end Json

end StackMachine
