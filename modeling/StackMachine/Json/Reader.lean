import StackMachine.Json
import StackMachine.Number.Literal

/-!
# Reading JSON

Reading has two stages.  `Json.tokens?` cuts a text into brackets, commas, colons, strings
and scalars, and `Json.State.step` is an automaton on those tokens, with the arrays and
objects that are still open on a stack.  `Json.parse?` accepts a text if the automaton ends
with one finished value.
-/

namespace StackMachine

namespace Json

/-- The smallest parts of a JSON text: strings, the scalars other than strings, and the
marks between them. -/
inductive Token where
  | beginArray
  | endArray
  | beginObject
  | endObject
  | comma
  | colon
  | string (value : Text)
  | scalar (value : Json)
deriving Repr

/-- The blanks between tokens: space, tab, line feed and carriage return. -/
def isSpace (u : CodeUnit) : Bool := u == 0x20 || u == 0x09 || u == 0x0A || u == 0x0D

/-- The unit of an escape of one letter. -/
def unescape? (u : CodeUnit) : Option CodeUnit :=
  if u = 0x22 then some 0x22
  else if u = 0x5C then some 0x5C
  else if u = 0x2F then some 0x2F
  else if u = CodeUnit.ofChar 'b' then some 0x08
  else if u = CodeUnit.ofChar 'f' then some 0x0C
  else if u = CodeUnit.ofChar 'n' then some 0x0A
  else if u = CodeUnit.ofChar 'r' then some 0x0D
  else if u = CodeUnit.ofChar 't' then some 0x09
  else none

/-- The unit of four hexadecimal digits. -/
def hexUnit? (a b c d : CodeUnit) : Option CodeUnit := do
  let a ← a.digitValue?
  let b ← b.digitValue?
  let c ← c.digitValue?
  let d ← d.digitValue?
  some (((a * 0x10 + b) * 0x10 + c) * 0x10 + d).toUInt16

/-- The string that ends at the first quote which is not escaped, and what follows the
quote. -/
def stringBody? : Text → Option (Text × Text)
  | [] => none
  | u :: r =>
    if u = 0x22 then some ([], r)
    else if u = 0x5C then
      match r with
      | [] => none
      | e :: s =>
        if e = CodeUnit.ofChar 'u' then
          match s with
          | a :: b :: c :: d :: rest =>
            match hexUnit? a b c d with
            | none => none
            | some v => (stringBody? rest).map (Prod.map (v :: ·) id)
          | _ => none
        else match unescape? e with
          | none => none
          | some v => (stringBody? s).map (Prod.map (v :: ·) id)
    else if u < 0x20 then none
    else (stringBody? r).map (Prod.map (u :: ·) id)

/-- The words of JSON with their values. -/
def literals : List (Text × Json) :=
  [("true", bool true), ("false", bool false), ("null", null)]

/-- A word at the head of a text, and the rest. -/
def literal? (s : Text) : Option (Json × Text) :=
  literals.findSome? fun (word, value) =>
    if word.isPrefixOf s then some (value, s.drop word.length) else none

/-- The token at the head of a text, and the rest. -/
def token? : Text → Option (Token × Text)
  | [] => none
  | u :: r =>
    if u = 0x5B then some (.beginArray, r)
    else if u = 0x5D then some (.endArray, r)
    else if u = 0x7B then some (.beginObject, r)
    else if u = 0x7D then some (.endObject, r)
    else if u = 0x2C then some (.comma, r)
    else if u = 0x3A then some (.colon, r)
    else if u = 0x22 then (stringBody? r).map (Prod.map .string id)
    else match literal? (u :: r) with
      | some (value, rest) => some (.scalar value, rest)
      | none => (Number.json? (u :: r)).map (Prod.map (.scalar ∘ .number) id)

/-! ### A token leaves a shorter rest -/

/-- A map of the result of a reading leaves the rest alone. -/
theorem exists_of_map_result {α β : Type} {f : α → β} {o : Option (α × Text)} {b : β}
    {rest : Text}
    (h : o.map (Prod.map f id) = some (b, rest)) :
  ∃ a, o = some (a, rest)
  := by
  obtain ⟨⟨a, r⟩, ho, hr⟩ := Option.map_eq_some_iff.1 h
  simp only [Prod.map_apply, id_eq, Prod.mk.injEq] at hr
  exact ⟨a, by rw [ho, hr.2]⟩

theorem stringBody?_length {s t rest : Text} (h : stringBody? s = some (t, rest)) :
  rest.length < s.length
  := by
  fun_induction stringBody? s generalizing t with
  | case2 => simp_all
  | case5 _ _ _ _ _ _ _ _ ih =>
    obtain ⟨_, h⟩ := exists_of_map_result h
    have := ih h
    simp only [List.length_cons]
    omega
  | case8 _ _ _ _ _ _ ih =>
    obtain ⟨_, h⟩ := exists_of_map_result h
    have := ih h
    simp only [List.length_cons]
    omega
  | case10 _ _ _ _ _ ih =>
    obtain ⟨_, h⟩ := exists_of_map_result h
    have := ih h
    simp only [List.length_cons]
    omega
  | _ => simp at h

theorem literal?_length {s rest : Text} {value : Json} (h : literal? s = some (value, rest)) :
  rest.length < s.length
  := by
  obtain ⟨⟨word, v⟩, hmem, h⟩ := List.exists_of_findSome?_eq_some h
  have hword : 0 < word.length := by
    simp only [literals, List.mem_cons, Prod.mk.injEq, List.not_mem_nil, or_false] at hmem
    rcases hmem with ⟨rfl, -⟩ | ⟨rfl, -⟩ | ⟨rfl, -⟩ <;> decide
  simp only at h
  split at h
  · next hp =>
    simp only [Option.some.injEq, Prod.mk.injEq] at h
    have := (List.isPrefixOf_iff_prefix.1 hp).length_le
    rw [← h.2, List.length_drop]
    omega
  · simp at h

theorem token?_length {s rest : Text} {token : Token} (h : token? s = some (token, rest)) :
  rest.length < s.length
  := by
  cases s with
  | nil => simp [token?] at h
  | cons u r =>
    simp only [token?] at h
    repeat' split at h
    all_goals try
      simp only [Option.some.injEq, Prod.mk.injEq] at h
      rw [h.2]
      simp
    · obtain ⟨_, h⟩ := exists_of_map_result h
      have := stringBody?_length h
      simp only [List.length_cons]
      omega
    · next hl =>
      simp only [Option.some.injEq, Prod.mk.injEq] at h
      rw [← h.2]
      exact literal?_length hl
    · obtain ⟨_, h⟩ := exists_of_map_result h
      exact Number.json?_length h

/-! ### From tokens to a value -/

/-- The tokens of a text, with the blanks before each removed. -/
def tokens? (s : Text) : Option (List Token) :=
  match _hs : s.dropWhile isSpace with
  | [] => some []
  | u :: r =>
    match _h : token? (u :: r) with
    | none => none
    | some (token, rest) => (tokens? rest).map (token :: ·)
termination_by s.length
decreasing_by
  have h₁ := token?_length _h
  have h₂ := (List.dropWhile_suffix (l := s) isSpace).length_le
  rw [_hs] at h₂
  omega

/-- An array or an object that is still open: the items so far, the last one first, or
the fields so far and the key whose value is next. -/
inductive Frame where
  | array (items : List Json)
  | object (fields : Fields Json) (key : Text)
deriving Repr

/-- What may come next, with the frames around it from the inside out. -/
inductive State where
  /-- A value is due. -/
  | value (frames : List Frame)
  /-- The first item of an array is due, or its end. -/
  | firstItem (frames : List Frame)
  /-- The first key of an object is due, or its end. -/
  | firstKey (frames : List Frame)
  /-- A key is due. -/
  | key (fields : Fields Json) (frames : List Frame)
  /-- The colon after a key is due. -/
  | colon (fields : Fields Json) (key : Text) (frames : List Frame)
  /-- A value is finished, and a comma or the end of its frame is due. -/
  | after (done : Json) (frames : List Frame)
deriving Repr

namespace State

/-- A token where a value is due. -/
def begin? (frames : List Frame) : Token → Option State
  | .beginArray => some (firstItem frames)
  | .beginObject => some (firstKey frames)
  | .string t => some (after (.string t) frames)
  | .scalar v => some (after v frames)
  | _ => none

/-- The state after a token, if the token may come. -/
def step : State → Token → Option State
  | value frames, token => begin? frames token
  | firstItem frames, .endArray => some (after (.array []) frames)
  | firstItem frames, token => begin? (.array [] :: frames) token
  | firstKey frames, .endObject => some (after (.object []) frames)
  | firstKey frames, .string k => some (colon [] k frames)
  | key fields frames, .string k => some (colon fields k frames)
  | colon fields k frames, .colon => some (value (.object fields k :: frames))
  | after v (.array items :: frames), .comma => some (value (.array (v :: items) :: frames))
  | after v (.array items :: frames), .endArray =>
    some (after (.array (v :: items).reverse) frames)
  | after v (.object fields k :: frames), .comma => some (key (fields.insert k v) frames)
  | after v (.object fields k :: frames), .endObject =>
    some (after (.object (fields.insert k v)) frames)
  | _, _ => none

/-- The value of a state in which the text may end. -/
def finished? : State → Option Json
  | after v [] => some v
  | _ => none

end State

/-- The value of a list of tokens. -/
def ofTokens? (tokens : List Token) : Option Json :=
  (tokens.foldlM State.step (.value [])).bind State.finished?

/-- The value that a text is written for; `none` if the text is no JSON. -/
def parse? (s : Text) : Option Json := (tokens? s).bind ofTokens?

end Json

end StackMachine
