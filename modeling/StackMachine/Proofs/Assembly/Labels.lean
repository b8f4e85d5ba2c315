import StackMachine.Proofs.Assembly.Grammar
import StackMachine.Proofs.Assembly.Printing
import StackMachine.Proofs.Assembly.Rewriting
import StackMachine.Proofs.Assembly.RoundTrip
import StackMachine.Proofs.Assembly.StaticSemantics

/-!
# Labels

A label is nothing but a name for a number of instructions.  If every label of a source is deleted
where it is defined, and where it is an operand the number is written in its place, then the source
assembles to the same code; and so it does if the labels are given other names.
-/

namespace StackMachine

namespace Assembly

/-! ### Erasing labels -/

/-- Whether a colon comes first. -/
def beginsWithColon (ts : List Token) : Bool := ts.head?.any fun t => t.kind = .colon

section

variable (index : Text → Nat)

/-- An integer in the place of a name. -/
def Token.numbered (t : Token) : Token := ⟨.integer, Text.ofNat (index t.image), t.place⟩

/-- What is written if labels are erased: nothing in the places of colons and of the names before
them, and a number in the place of any other name. -/
def erasures : List Token → List (Token × Text)
  | [] => []
  | t :: r =>
    if t.kind = .colon then (t, []) :: erasures r
    else if t.kind = .identifier then
      (t, if beginsWithColon r then [] else Text.ofNat (index t.image)) :: erasures r
    else erasures r

/-- The tokens that are left if labels are erased. -/
def unlabelled : List Token → List Token
  | [] => []
  | t :: r =>
    if t.kind = .colon then unlabelled r
    else if t.kind = .identifier then
      if beginsWithColon r then unlabelled r else t.numbered index :: unlabelled r
    else t :: unlabelled r

/-- A source in which labels are erased: where one is defined its name and the colon are deleted, and
where one is an operand its number is written. -/
def eraseLabels (source : Text) : Text :=
  rewriteFrom 0 source
    (erasures index (Lexed.tokens (Lexed.scan .start (terminated source))))

/-- An operand with a number in the place of a label. -/
def Operand.numbered : Operand → Operand
  | integer t => integer t
  | label t => integer (t.numbered index)

end

/-- A line with other labels and another operand. -/
def Line.exchange (labels : List Token → List Token) (operand : Operand → Operand) (l : Line) :
    Line :=
  ⟨labels l.labels, l.statement.map fun s => { s with operand := s.operand.map operand }⟩

/-- A line without labels. -/
def Line.unlabel (index : Text → Nat) : Line → Line :=
  exchange (fun _ => []) (Operand.numbered index)

/-- A position within a line without labels. -/
def LineState.unlabel (index : Text → Nat) : LineState → LineState
  | labels _ => labels []
  | named _ _ => labels []
  | opened _ opcode m => opened [] opcode m
  | complete _ s => complete [] { s with operand := s.operand.map (Operand.numbered index) }

/-- Whether the colon behind a name is due. -/
def LineState.isNamed : LineState → Bool
  | named _ _ => true
  | _ => false

/-- A colon comes where one is due. -/
theorem beginsWithColon_eq {s : LineState} {ts : List Token} {lines : List Line}
    (h : Line.ofTokensFrom s ts = .ok lines) :
  beginsWithColon ts = s.isNamed
  := by
  cases ts with
  | nil =>
    rw [Line.ofTokensFrom] at h
    split at h
    · next hstart =>
      rw [hstart]
      rfl
    · cases h
  | cons t ts =>
    have hstep : ∃ x, s.step t = .ok x := by
      rcases ofTokensFrom_cons_iff.mp h with ⟨s', hstep, -⟩ | ⟨line, -, hstep, -⟩
      · exact ⟨_, hstep⟩
      · exact ⟨_, hstep⟩
    obtain ⟨x, hstep⟩ := hstep
    obtain ⟨kind, image, place⟩ := t
    cases s <;> cases kind <;> cases hstep <;> rfl

/-- The colon behind a name is left out with the name. -/
theorem LineState.step_unlabel_colon (index : Text → Nat) {s : LineState} {t : Token}
    {x : LineState ⊕ Line} (ht : t.kind = .colon) (h : s.step t = .ok x) :
  s.isNamed = true
    ∧ ∃ s', x = .inl s' ∧ s'.isNamed = false ∧ s'.unlabel index = s.unlabel index
  := by
  obtain ⟨kind, image, place⟩ := t
  cases ht
  cases s <;> cases h
  exact ⟨rfl, _, rfl, rfl, rfl⟩

/-- A name begins a label, or it is an operand, in the place of which its number is read. -/
theorem LineState.step_unlabel_name (index : Text → Nat) {s : LineState} {t : Token}
    {x : LineState ⊕ Line} (ht : t.kind = .identifier) (h : s.step t = .ok x) :
  s.isNamed = false ∧ ∃ s', x = .inl s'
    ∧ (s'.isNamed = true ∧ s'.unlabel index = s.unlabel index
      ∨ s'.isNamed = false
        ∧ (s.unlabel index).step (t.numbered index) = .ok (.inl (s'.unlabel index)))
  := by
  obtain ⟨kind, image, place⟩ := t
  cases ht
  cases s with
  | labels =>
    cases h
    exact ⟨rfl, _, rfl, .inl ⟨rfl, rfl⟩⟩
  | opened =>
    cases h
    exact ⟨rfl, _, rfl, .inr ⟨rfl, rfl⟩⟩
  | named | complete => cases h

/-- Tokens that belong to no label are read as they are. -/
theorem LineState.step_unlabel (index : Text → Nat) {s : LineState} {t : Token}
    {x : LineState ⊕ Line} (hcolon : t.kind ≠ .colon) (hname : t.kind ≠ .identifier)
    (h : s.step t = .ok x) :
  (s.unlabel index).step t = .ok (x.map (unlabel index) (Line.unlabel index))
    ∧ s.isNamed = false ∧ ∀ s', x = .inl s' → s'.isNamed = false
  := by
  obtain ⟨kind, image, place⟩ := t
  cases kind with
  | colon => cases hcolon rfl
  | identifier => cases hname rfl
  | mnemonic | integer | newline =>
    cases s <;> cases h <;> refine ⟨rfl, rfl, ?_⟩ <;> rintro _ ⟨⟩ <;> rfl

/-- Tokens without labels are read as the lines without labels. -/
theorem unlabelled_spec (index : Text → Nat) {s : LineState} {ts : List Token} {lines : List Line}
    (h : Line.ofTokensFrom s ts = .ok lines) :
  Line.ofTokensFrom (s.unlabel index) (unlabelled index ts) = .ok (lines.map (Line.unlabel index))
    ∧ Respells s.isNamed ts (erasures index ts) (unlabelled index ts)
  := by
  induction ts generalizing s lines with
  | nil =>
    rw [Line.ofTokensFrom] at h
    split at h
    · next hstart =>
      cases h
      rw [hstart]
      exact ⟨rfl, .nil⟩
    · cases h
  | cons t ts ih =>
    rcases ofTokensFrom_cons_iff.mp h with ⟨s', hstep, hrest⟩ | ⟨line, rest, hstep, hrest, rfl⟩
    · obtain ⟨hread, hrespells⟩ := ih hrest
      by_cases hcolon : t.kind = .colon
      · obtain ⟨hnamed, _, ⟨⟩, hnamed', hs⟩ := LineState.step_unlabel_colon index hcolon hstep
        rw [hnamed'] at hrespells
        rw [unlabelled, erasures, if_pos hcolon, if_pos hcolon, hnamed, ← hs]
        exact ⟨hread, .colon hcolon hrespells⟩
      · by_cases hname : t.kind = .identifier
        · obtain ⟨hnamed, _, ⟨⟩, hs⟩ := LineState.step_unlabel_name index hname hstep
          rw [unlabelled, erasures, if_neg hcolon, if_neg hcolon, if_pos hname, if_pos hname,
            beginsWithColon_eq hrest, hnamed]
          rcases hs with ⟨hnamed', hs⟩ | ⟨hnamed', hstep'⟩
          · rw [hnamed'] at hrespells ⊢
            rw [← hs]
            exact ⟨hread, .name hname hrespells⟩
          · rw [hnamed'] at hrespells ⊢
            exact ⟨ofTokensFrom_cons_iff.mpr (.inl ⟨_, hstep', hread⟩),
              .exchange hname (.natural (isNatural_ofNat _)) hrespells⟩
        · obtain ⟨hstep', hnamed, hnamed'⟩ := LineState.step_unlabel index hcolon hname hstep
          rw [unlabelled, erasures, if_neg hcolon, if_neg hcolon, if_neg hname, if_neg hname, hnamed]
          rw [hnamed' s' rfl] at hrespells
          exact ⟨ofTokensFrom_cons_iff.mpr (.inl ⟨_, hstep', hread⟩), .keep hrespells⟩
    · obtain ⟨hread, hrespells⟩ := ih hrest
      -- Neither a colon nor a name is the end of a line.
      have hcolon : t.kind ≠ .colon := by
        intro ht
        obtain ⟨-, _, ⟨⟩, -⟩ := LineState.step_unlabel_colon index ht hstep
      have hname : t.kind ≠ .identifier := by
        intro ht
        obtain ⟨-, _, ⟨⟩, -⟩ := LineState.step_unlabel_name index ht hstep
      obtain ⟨hstep', hnamed, -⟩ := LineState.step_unlabel index hcolon hname hstep
      rw [unlabelled, erasures, if_neg hcolon, if_neg hcolon, if_neg hname, if_neg hname, hnamed]
      exact ⟨ofTokensFrom_cons_iff.mpr (.inr ⟨_, _, hstep', hread, rfl⟩), .keep hrespells⟩

/-! ### Encoding -/

theorem statements_exchange (labels : List Token → List Token) (operand : Operand → Operand)
    (lines : List Line) :
  statements (lines.map (Line.exchange labels operand))
    = (statements lines).map fun s => { s with operand := s.operand.map operand }
  := by
  rw [statements, statements, List.filterMap_map, List.map_filterMap]
  rfl

theorem duplicates_of_encodeLines {lines : List Line} {code : Code}
    (h : encodeLines lines = .ok code) :
  duplicates [] (definitions 0 lines) = []
  := by
  rw [encodeLines] at h
  split at h
  · next hnone => exact (List.append_eq_nil_iff.mp hnone).1
  · cases h

/-- Each instruction of lines that are encoded is encoded. -/
theorem exists_encode {lines : List Line} {code : Code} (h : encodeLines lines = .ok code)
    {s : Statement} (hs : s ∈ statements lines) :
  ∃ i, encode (definitions 0 lines) s = .ok i
  := by
  have hmem : encode (definitions 0 lines) s ∈ encodeAll lines := List.mem_map_of_mem hs
  rw [encodeAll_of_encodeLines h] at hmem
  obtain ⟨i, -, hi⟩ := List.mem_map.mp hmem
  exact ⟨i, hi.symm⟩

/-- Lines with other labels and other operands encode the same, if no label is defined twice and what
an operand denoted is denoted by the new one. -/
theorem encodeLines_exchange {lines : List Line} {code : Code} {labels : List Token → List Token}
    {operand : Operand → Operand} (h : encodeLines lines = .ok code)
    (hduplicates : duplicates [] (definitions 0 (lines.map (Line.exchange labels operand))) = [])
    (hresolve : ∀ o n, resolve (definitions 0 lines) o = .ok n →
      resolve (definitions 0 (lines.map (Line.exchange labels operand))) (operand o) = .ok n) :
  encodeLines (lines.map (Line.exchange labels operand)) = .ok code
  := by
  have hall := encodeAll_of_encodeLines h
  apply encodeLines_eq_ok hduplicates
  rw [← hall, encodeAll, encodeAll]
  change (statements _).map _ = (statements lines).map _
  rw [statements_exchange, List.map_map]
  apply List.map_congr_left
  intro s hs
  obtain ⟨i, hi⟩ := exists_encode h hs
  obtain ⟨hopcode, hoperand, htarget⟩ := encode_eq_ok_iff.mp hi
  rw [hi]
  apply encode_eq_ok_iff.mpr
  refine ⟨hopcode, ?_, htarget⟩
  obtain ⟨opcode, m, o⟩ := s
  generalize immediate? i = value at hoperand ⊢
  cases hoperand with
  | none => exact .none
  | some hn => exact .some (hresolve _ _ hn)

/-- No label is defined twice if the names of labels differ from each other, and from those that have
been seen. -/
theorem duplicates_eq_nil_iff {seen : List Text} {table : List Definition} :
  duplicates seen table = []
    ↔ (table.map fun d => d.1.image).Nodup ∧ ∀ d ∈ table, d.1.image ∉ seen
  := by
  induction table generalizing seen with
  | nil => simp [duplicates]
  | cons d table ih =>
    obtain ⟨t, n⟩ := d
    rw [duplicates]
    by_cases hseen : t.image ∈ seen
    · rw [if_pos (List.contains_iff_mem.mpr hseen)]
      constructor
      · rintro ⟨⟩
      · rintro ⟨-, h⟩
        cases h _ List.mem_cons_self hseen
    · rw [if_neg (mt List.contains_iff_mem.mp hseen), ih]
      simp only [List.map_cons, List.nodup_cons, List.mem_map, List.mem_cons]
      grind

/-- A label that is defined once is looked up where it is defined. -/
theorem lookup?_eq_some {table : List Definition} (hnodup : (table.map fun d => d.1.image).Nodup)
    {d : Definition} (hd : d ∈ table) :
  lookup? table d.1.image = some d.2
  := by
  obtain ⟨e, he⟩ : ∃ e, table.find? (fun e => e.1.image = d.1.image) = some e :=
    Option.isSome_iff_exists.mp (List.find?_isSome.mpr ⟨d, hd, by simp⟩)
  have hname : e.1.image = d.1.image := by simpa using List.find?_some he
  have heq := List.inj_on_of_nodup_map hnodup (List.mem_of_find?_eq_some he) hd hname
  rw [lookup?, he, heq]
  rfl

/-- A label that is defined on a line names the number of instructions before it, if no label is
defined twice. -/
theorem IsPlaced.lookup? {lines : List Line} {name : Text} {n : Nat} (h : IsPlaced lines name n)
    (hduplicates : duplicates [] (definitions 0 lines) = []) :
  lookup? (definitions 0 lines) name = some n
  := by
  obtain ⟨before, line, after, rfl, ⟨l, hl, rfl⟩, rfl⟩ := h
  have hmem : (l, (statements before).length) ∈ definitions 0 (before ++ line :: after) := by
    rw [definitions_append, Nat.zero_add]
    apply List.mem_append_right
    apply List.mem_append_left
    exact List.mem_map_of_mem hl
  exact lookup?_eq_some (duplicates_eq_nil_iff.mp hduplicates).1 hmem

theorem isPlaced_of_lookup? {lines : List Line} {name : Text} {n : Nat}
    (h : lookup? (definitions 0 lines) name = some n) :
  IsPlaced lines name n
  := by
  rcases lookup?_definitions lines name with ⟨hnone, -⟩ | ⟨m, hsome, -, hplaced⟩
  · rw [h] at hnone
    cases hnone
  · rw [h] at hsome
    cases hsome
    exact hplaced

/-- A number in the place of a label denotes what the label does. -/
theorem resolve_numbered {lines : List Line} {index : Text → Nat} {o : Operand} {n : Int}
    (hindex : ∀ name n, IsPlaced lines name n → index name = n)
    (hlength : ((statements lines).length : Int) ≤ Word.greatest)
    (h : resolve (definitions 0 lines) o = .ok n) (table : List Definition) :
  resolve table (o.numbered index) = .ok n
  := by
  cases o with
  | integer t => exact h
  | label t =>
    rw [resolve] at h
    split at h
    · next m hm =>
      cases h
      have hplaced := isPlaced_of_lookup? hm
      have hle := hplaced.le
      have hword : Word.IsWord (m : Int) := by
        rw [Word.IsWord, Word.least]
        omega
      apply resolve_ofInt hword
      exact congrArg Text.ofNat (hindex _ _ hplaced)
    · cases h

theorem definitions_unlabel (index : Text → Nat) (n : Nat) (lines : List Line) :
  definitions n (lines.map (Line.unlabel index)) = []
  := by
  induction lines generalizing n with
  | nil => rfl
  | cons line lines ih =>
    rw [List.map_cons, definitions, ih]
    rfl

/-- A source without labels assembles to the same code. -/
theorem assemble_eraseLabels_of_index {source : Text} {lines : List Line} {code : Code}
    {index : Text → Nat} (hreads : Reads source lines) (hcode : assemble source = .ok code)
    (hlength : (code.length : Int) ≤ Word.greatest)
    (hindex : ∀ name n, IsPlaced lines name n → index name = n) :
  assemble (eraseLabels index source) = .ok code
  := by
  obtain ⟨hparses, hrespells⟩ := unlabelled_spec index hreads.parses
  apply assemble_rewriteFrom hreads.scans hrespells
  rw [hreads.assemble] at hcode
  have hcount : ((statements lines).length : Int) ≤ Word.greatest := by
    have := congrArg List.length (encodeAll_of_encodeLines hcode)
    rw [encodeAll, List.length_map, List.length_map] at this
    change (statements lines).length = _ at this
    rwa [this]
  apply assembleTokens_eq_ok_iff.mpr
  refine ⟨_, hparses, ?_⟩
  apply encodeLines_exchange hcode
  · change duplicates [] (definitions 0 (lines.map (Line.unlabel index))) = []
    rw [definitions_unlabel]
    rfl
  · intro o n hn
    exact resolve_numbered hindex hcount hn _

/-! ### Renaming labels -/

section

variable (f : Text → Text)

/-- A token with another text. -/
def Token.rename (t : Token) : Token := { t with image := f t.image }

/-- What is written if labels are renamed: the new name in the place of each name. -/
def renamings (ts : List Token) : List (Token × Text) :=
  (ts.filter fun t => t.kind = .identifier).map fun t => (t, f t.image)

/-- The tokens that are there if labels are renamed. -/
def renamed (ts : List Token) : List Token :=
  ts.map fun t => if t.kind = .identifier then t.rename f else t

/-- A source in which labels are renamed, where they are defined and where they are operands. -/
def renameLabels (source : Text) : Text :=
  rewriteFrom 0 source (renamings f (Lexed.tokens (Lexed.scan .start (terminated source))))

/-- An operand with the new name of a label. -/
def Operand.rename : Operand → Operand
  | integer t => integer t
  | label t => label (t.rename f)

/-- A line with the new names of labels. -/
def Line.rename : Line → Line := exchange (List.map (Token.rename f)) (Operand.rename f)

/-- A position within a line with the new names of labels. -/
def LineState.rename : LineState → LineState
  | labels ls => labels (ls.map (Token.rename f))
  | named ls t => named (ls.map (Token.rename f)) (t.rename f)
  | opened ls opcode m => opened (ls.map (Token.rename f)) opcode m
  | complete ls s =>
    complete (ls.map (Token.rename f)) { s with operand := s.operand.map (Operand.rename f) }

variable {f}

/-- A name is read as the old one is. -/
theorem LineState.step_rename {s : LineState} {t : Token} {x : LineState ⊕ Line}
    (h : s.step t = .ok x) :
  (s.rename f).step (if t.kind = .identifier then t.rename f else t)
    = .ok (x.map (rename f) (Line.rename f))
  := by
  obtain ⟨kind, image, place⟩ := t
  cases s with
  | named ls name =>
    cases kind <;> cases h
    rw [if_neg nofun, Sum.map_inl, rename, rename, List.map_append]
    rfl
  | labels | opened | complete => cases kind <;> cases h <;> rfl

/-- Tokens with new names are read as the lines with new names. -/
theorem ofTokensFrom_renamed {s : LineState} {ts : List Token} {lines : List Line}
    (h : Line.ofTokensFrom s ts = .ok lines) :
  Line.ofTokensFrom (s.rename f) (renamed f ts) = .ok (lines.map (Line.rename f))
  := by
  induction ts generalizing s lines with
  | nil =>
    rw [Line.ofTokensFrom] at h
    split at h
    · next hstart =>
      cases h
      rw [hstart]
      rfl
    · cases h
  | cons t ts ih =>
    apply ofTokensFrom_cons_iff.mpr
    rcases ofTokensFrom_cons_iff.mp h with ⟨s', hstep, hrest⟩ | ⟨line, rest, hstep, hrest, rfl⟩
    · exact .inl ⟨_, LineState.step_rename hstep, ih hrest⟩
    · exact .inr ⟨_, _, LineState.step_rename hstep, ih hrest, rfl⟩

/-- Names are spelled anew if the new ones are identifiers. -/
theorem respells_renamed {ts : List Token}
    (hf : ∀ t ∈ ts, t.kind = .identifier → TokenKind.identifier.Matches (f t.image)) :
  Respells false ts (renamings f ts) (renamed f ts)
  := by
  induction ts with
  | nil => exact .nil
  | cons t ts ih =>
    obtain ⟨ht, hts⟩ := List.forall_mem_cons.mp hf
    by_cases hname : t.kind = .identifier
    · rw [renamed, List.map_cons, if_pos hname, renamings, List.filter_cons_of_pos (by simp [hname])]
      have hexchange := Respells.exchange hname (ht hname) (ih hts)
      rw [← hname] at hexchange
      exact hexchange
    · rw [renamed, List.map_cons, if_neg hname, renamings, List.filter_cons_of_neg (by simp [hname])]
      exact .keep (ih hts)

theorem definitions_rename (n : Nat) (lines : List Line) :
  definitions n (lines.map (Line.rename f))
    = (definitions n lines).map fun d => (d.1.rename f, d.2)
  := by
  induction lines generalizing n with
  | nil => rfl
  | cons line lines ih =>
    have hlabels : (line.rename f).labels.map (·, n)
        = (line.labels.map (·, n)).map fun d => (d.1.rename f, d.2) := by
      rw [Line.rename, Line.exchange, List.map_map, List.map_map]
      rfl
    rw [List.map_cons, definitions, definitions, List.map_append, hlabels, ih, Line.rename,
      Line.exchange, Option.isSome_map]

/-- Names of labels that are kept apart are kept apart in a table of labels. -/
theorem nodup_rename {table : List Definition} (hnodup : (table.map fun d => d.1.image).Nodup)
    (hf : ∀ d ∈ table, ∀ e ∈ table, f d.1.image = f e.1.image → d.1.image = e.1.image) :
  ((table.map fun d => (d.1.rename f, d.2)).map fun d => d.1.image).Nodup
  := by
  have hnames : (table.map fun d => (d.1.rename f, d.2)).map (fun d => d.1.image)
      = (table.map fun d => d.1.image).map f := by
    rw [List.map_map, List.map_map]
    rfl
  rw [hnames]
  apply hnodup.map_on
  simp only [List.mem_map]
  rintro _ ⟨d, hd, rfl⟩ _ ⟨e, he, rfl⟩ h
  exact hf d hd e he h

/-- A name that is new denotes what the old one does. -/
theorem resolve_rename {table : List Definition} {o : Operand} {n : Int}
    (hnodup : ((table.map fun d => (d.1.rename f, d.2)).map fun d => d.1.image).Nodup)
    (h : resolve table o = .ok n) :
  resolve (table.map fun d => (d.1.rename f, d.2)) (o.rename f) = .ok n
  := by
  cases o with
  | integer t => exact h
  | label t =>
    rw [resolve] at h
    split at h
    · next m hm =>
      cases h
      obtain ⟨d, hd, rfl⟩ := Option.map_eq_some_iff.mp hm
      have hname : d.1.image = t.image := by simpa using List.find?_some hd
      have hlookup := lookup?_eq_some hnodup (List.mem_map_of_mem (List.mem_of_find?_eq_some hd))
      have himage : ((t.rename f).image) = (d.1.rename f).image := congrArg f hname.symm
      rw [Operand.rename, resolve, himage, hlookup]
    · cases h

end

/-- Names before colons are labels. -/
theorem SpellsLabels.mem {ls us : List Token} (h : SpellsLabels ls us) {t : Token} (ht : t ∈ us)
    (hname : t.kind = .identifier) :
  t ∈ ls
  := by
  induction h with
  | nil => cases ht
  | concat _ _ hc ih =>
    rcases List.mem_append.mp ht with ht | ht
    · exact List.mem_append_left _ (ih ht)
    · apply List.mem_append_right
      rcases List.mem_cons.mp ht with rfl | ht
      · exact List.mem_singleton_self _
      · rw [List.mem_singleton.mp ht, hc] at hname
        cases hname

/-- A name in an instruction is its operand. -/
theorem SpellsStatement.exists_operand {s : Option Statement} {us : List Token}
    (h : SpellsStatement s us) {t : Token} (ht : t ∈ us) (hname : t.kind = .identifier) :
  ∃ statement, s = some statement ∧ statement.operand = some (.label t)
  := by
  cases h with
  | none => cases ht
  | bare hm =>
    rw [List.mem_singleton.mp ht, hm] at hname
    cases hname
  | operand hm ho =>
    rcases List.mem_cons.mp ht with rfl | ht
    · rw [hm] at hname
      cases hname
    · cases List.mem_singleton.mp ht
      cases ho with
      | integer hinteger =>
        rw [hinteger] at hname
        cases hname
      | label => exact ⟨_, rfl, rfl⟩

/-- A label that is the operand of an instruction that is encoded is defined. -/
theorem exists_label_of_operand {lines : List Line} {code : Code}
    (hcode : encodeLines lines = .ok code) {s : Statement} (hs : s ∈ statements lines) {t : Token}
    (ht : s.operand = some (.label t)) :
  ∃ l ∈ labels lines, l.image = t.image
  := by
  obtain ⟨i, hi⟩ := exists_encode hcode hs
  have hdenotes := (encode_eq_ok_iff.mp hi).2.1
  rw [ht] at hdenotes
  generalize immediate? i = value at hdenotes
  cases hdenotes with
  | some hn =>
    rw [resolve] at hn
    split at hn
    · next m hm =>
      obtain ⟨before, line, after, rfl, ⟨l, hl, hname⟩, -⟩ := isPlaced_of_lookup? hm
      have hline : line ∈ before ++ line :: after := List.mem_append_right _ List.mem_cons_self
      exact ⟨l, List.mem_flatMap.mpr ⟨line, hline, hl⟩, hname⟩
    · cases hn

/-- Every name in lines that are encoded is that of a label. -/
theorem exists_label {ts : List Token} {lines : List Line} {code : Code}
    (hparses : Line.ofTokens ts = .ok lines) (hcode : encodeLines lines = .ok code) {t : Token}
    (ht : t ∈ ts) (hname : t.kind = .identifier) :
  ∃ l ∈ labels lines, l.image = t.image
  := by
  obtain ⟨parts, hparts, rfl⟩ := ofTokens_eq_ok_iff.mp hparses
  rw [← hparts.tokens] at ht
  obtain ⟨⟨line, us⟩, hpart, ht⟩ := List.mem_flatMap.mp ht
  have hline : line ∈ parts.map Prod.fst := List.mem_map_of_mem hpart
  cases hparts.spells _ hpart with
  | intro hlabels hstatement hn =>
    rcases List.mem_append.mp ht with ht | ht
    · rcases List.mem_append.mp ht with ht | ht
      · exact ⟨t, List.mem_flatMap.mpr ⟨line, hline, hlabels.mem ht hname⟩, rfl⟩
      · obtain ⟨s, hs, hoperand⟩ := hstatement.exists_operand ht hname
        exact exists_label_of_operand hcode (List.mem_filterMap.mpr ⟨line, hline, hs⟩) hoperand
    · rw [List.mem_singleton.mp ht, hn] at hname
      cases hname

/-- A source whose labels have other names assembles to the same code. -/
theorem assemble_renameLabels {source : Text} {lines : List Line} {code : Code} {f : Text → Text}
    (hreads : Reads source lines) (hcode : assemble source = .ok code)
    (hwords : ∀ l ∈ labels lines, TokenKind.identifier.Writes (f l.image))
    (hapart : ∀ l ∈ labels lines, ∀ l' ∈ labels lines, f l.image = f l'.image →
      l.image = l'.image) :
  assemble (renameLabels f source) = .ok code
  := by
  rw [hreads.assemble] at hcode
  have hmatches : ∀ t ∈ Lexed.tokens (Lexed.scan .start (terminated source)),
      t.kind = .identifier → TokenKind.identifier.Matches (f t.image) := by
    intro t ht hname
    obtain ⟨l, hl, hlname⟩ := exists_label hreads.parses hcode ht hname
    rw [← hlname]
    exact (hwords l hl).matches
  have hnodup := (duplicates_eq_nil_iff.mp (duplicates_of_encodeLines hcode)).1
  have hlabel : ∀ d ∈ definitions 0 lines, d.1 ∈ labels lines := by
    intro d hd
    rw [← labels_definitions 0]
    exact List.mem_map_of_mem hd
  have hnodup' := nodup_rename (f := f) hnodup fun d hd e he =>
    hapart _ (hlabel d hd) _ (hlabel e he)
  have hdefinitions : definitions 0 (lines.map (Line.exchange (List.map (Token.rename f))
      (Operand.rename f))) = (definitions 0 lines).map fun d => (d.1.rename f, d.2) :=
    definitions_rename 0 lines
  apply assemble_rewriteFrom hreads.scans (respells_renamed hmatches)
  apply assembleTokens_eq_ok_iff.mpr
  refine ⟨_, ofTokensFrom_renamed hreads.parses, ?_⟩
  apply encodeLines_exchange hcode
  · rw [hdefinitions]
    exact duplicates_eq_nil_iff.mpr ⟨hnodup', fun d _ => List.not_mem_nil⟩
  · intro o n hn
    rw [hdefinitions]
    exact resolve_rename hnodup' hn

/-- The number of instructions that a label names. -/
def indexOf (lines : List Line) (name : Text) : Nat := (lookup? (definitions 0 lines) name).getD 0

theorem indexOf_eq {lines : List Line} {code : Code} (h : encodeLines lines = .ok code) {name : Text}
    {n : Nat} (hplaced : IsPlaced lines name n) :
  indexOf lines name = n
  := by
  rw [indexOf, hplaced.lookup? (duplicates_of_encodeLines h), Option.getD_some]

/-- Labels of a source that assembles can be erased: where they are defined they are deleted, and
where they are operands the numbers of instructions that they name are written.  They can also be
renamed, if names that differ go on to differ.  Neither changes the code, as long as its instructions
can be counted in words, so that the position that a label loads as a constant is one. -/
theorem assemble_labels {source : Text} {lines : List Line} {code : Code}
    (hreads : Reads source lines) (hcode : assemble source = .ok code)
    (hlength : (code.length : Int) ≤ Word.greatest) :
  (∃ index : Text → Nat, ∀ name n, IsPlaced lines name n → index name = n)
    ∧ (∀ index : Text → Nat, (∀ name n, IsPlaced lines name n → index name = n) →
      assemble (eraseLabels index source) = .ok code)
    ∧ ∀ f : Text → Text, (∀ l ∈ labels lines, TokenKind.identifier.Writes (f l.image)) →
      (∀ l ∈ labels lines, ∀ l' ∈ labels lines, f l.image = f l'.image → l.image = l'.image) →
      assemble (renameLabels f source) = .ok code
  := by
  refine ⟨?_, ?_, ?_⟩
  · use indexOf lines
    intro name n hplaced
    exact indexOf_eq (hreads.assemble.symm.trans hcode) hplaced
  · intro index hindex
    exact assemble_eraseLabels_of_index hreads hcode hlength hindex
  · intro f hwords hapart
    exact assemble_renameLabels hreads hcode hwords hapart

/-- A label behind the last instruction, whose operand stands before a comment, and one that names
the first instruction and is loaded as a constant; then the two names are exchanged. -/
theorem assemble_labels_two :
  ∃ lines f, Reads "a: jumpz b#x\nloadc a\nb :" lines
    ∧ assemble "a: jumpz b#x\nloadc a\nb :" = .ok [.jumpz 2, .loadc 0]
    ∧ eraseLabels (indexOf lines) "a: jumpz b#x\nloadc a\nb :"
      = Text.ofString " jumpz 2#x\nloadc 0\n "
    ∧ assemble " jumpz 2#x\nloadc 0\n " = .ok [.jumpz 2, .loadc 0]
    ∧ renameLabels f "a: jumpz b#x\nloadc a\nb :"
      = Text.ofString "b: jumpz a#x\nloadc b\na :"
    ∧ assemble "b: jumpz a#x\nloadc b\na :" = .ok [.jumpz 2, .loadc 0]
  := by
  let lines : List Line := [
    ⟨[⟨.identifier, "a", ⟨0, 1, 1⟩⟩], some ⟨.jumpz, ⟨.mnemonic .jumpz, "jumpz", ⟨3, 1, 4⟩⟩,
      some (.label ⟨.identifier, "b", ⟨9, 1, 10⟩⟩)⟩⟩,
    ⟨[], some ⟨.loadc, ⟨.mnemonic .loadc, "loadc", ⟨13, 2, 1⟩⟩,
      some (.label ⟨.identifier, "a", ⟨19, 2, 7⟩⟩)⟩⟩,
    ⟨[⟨.identifier, "b", ⟨21, 3, 1⟩⟩], none⟩]
  let f (w : Text) : Text := if w = Text.ofString "a" then "b" else "a"
  have hreads : Reads "a: jumpz b#x\nloadc a\nb :" lines := by
    constructor
    · decide +kernel
    · decide +kernel
  have hcode : assemble "a: jumpz b#x\nloadc a\nb :" = .ok [.jumpz 2, .loadc 0] := by
    decide +kernel
  have herased : eraseLabels (indexOf lines) "a: jumpz b#x\nloadc a\nb :"
      = Text.ofString " jumpz 2#x\nloadc 0\n " := by decide +kernel
  have hrenamed : renameLabels f "a: jumpz b#x\nloadc a\nb :"
      = Text.ofString "b: jumpz a#x\nloadc b\na :" := by decide +kernel
  obtain ⟨-, herase, hrename⟩ := assemble_labels hreads hcode (by decide)
  have herase := herase (indexOf lines) fun name n => indexOf_eq (hreads.assemble.symm.trans hcode)
  rw [herased] at herase
  have hwords : ∀ l ∈ labels lines,
      (f l.image).IsWord ∧ Opcode.ofMnemonic? (f l.image) = none := by decide +kernel
  have hrename := hrename f (fun l hl => TokenKind.writes_identifier (hwords l hl).1 (hwords l hl).2)
    (by decide +kernel)
  rw [hrenamed] at hrename
  exact ⟨lines, f, hreads, hcode, herased, herase, hrenamed, hrename⟩

end Assembly

end StackMachine
