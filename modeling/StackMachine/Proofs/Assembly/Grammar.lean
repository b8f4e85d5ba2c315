import StackMachine.Proofs.Assembly.Problems
import StackMachine.Proofs.Assembly.Refusal

/-!
# The grammar of lines

A line is a sequence of labels, each an identifier and a colon, then at most one mnemonic with at
most one operand, then the line end.  The automaton that reads lines accepts exactly the sequences
of such lines, each in one way only, and the token that it blames is the first after which the
tokens are no longer the beginning of such a sequence.
-/

namespace StackMachine

namespace Assembly

/-! ### Lines and their tokens -/

/-- Labels and the tokens that spell them: identifiers, each followed by a colon. -/
inductive SpellsLabels : List Token → List Token → Prop where
  | nil : SpellsLabels [] []
  | concat {ls ts : List Token} {t c : Token} (h : SpellsLabels ls ts)
    (ht : t.kind = .identifier) (hc : c.kind = .colon) : SpellsLabels (ls ++ [t]) (ts ++ [t, c])

/-- An operand and the token that spells it: an integer or an identifier. -/
inductive Operand.Spells : Operand → Token → Prop where
  | integer {t : Token} (h : t.kind = .integer) : Spells (.integer t) t
  | label {t : Token} (h : t.kind = .identifier) : Spells (.label t) t

/-- At most one instruction and the tokens that spell it: a mnemonic with at most one operand. -/
inductive SpellsStatement : Option Statement → List Token → Prop where
  | none : SpellsStatement none []
  | bare {opcode : Opcode} {m : Token} (hm : m.kind = .mnemonic opcode) :
    SpellsStatement (some ⟨opcode, m, none⟩) [m]
  | operand {opcode : Opcode} {m t : Token} {o : Operand} (hm : m.kind = .mnemonic opcode)
    (ho : o.Spells t) : SpellsStatement (some ⟨opcode, m, some o⟩) [m, t]

/-- A line and the tokens that spell it: its labels, its instruction if it has one, and the line
end. -/
inductive Line.Spells (line : Line) : List Token → Prop where
  | intro {ls ss : List Token} {n : Token} (hlabels : SpellsLabels line.labels ls)
    (hstatement : SpellsStatement line.statement ss) (hn : n.kind = .newline) :
    Spells line (ls ++ ss ++ [n])

/-- Tokens that are cut into lines, each with the tokens that spell it. -/
structure Derives (ts : List Token) (parts : List (Line × List Token)) : Prop where
  spells : ∀ part ∈ parts, part.1.Spells part.2
  tokens : parts.flatMap Prod.snd = ts

/-- Whether a token ends a line. -/
def Token.endsLine (t : Token) : Bool := t.kind = .newline

/-- Tokens with which a sequence of lines begins. -/
def Viable (ts : List Token) : Prop := ∃ more parts, Derives (ts ++ more) parts

theorem Derives.nil :
  Derives [] []
  := by
  constructor
  · rintro _ ⟨⟩
  · rfl

theorem Derives.cons {line : Line} {us ts : List Token} {parts : List (Line × List Token)}
    (hline : line.Spells us) (h : Derives ts parts) :
  Derives (us ++ ts) ((line, us) :: parts)
  := by
  constructor
  · intro part hpart
    rcases List.mem_cons.mp hpart with rfl | hpart
    · apply hline
    · apply h.spells part hpart
  · rw [List.flatMap_cons, h.tokens]

/-! ### Tokens one after another -/

/-- Tokens are read as lines if the first leads on within a line, or ends one, and the others are
read from there. -/
theorem ofTokensFrom_cons_iff {s : LineState} {t : Token} {ts : List Token} {lines : List Line} :
  Line.ofTokensFrom s (t :: ts) = .ok lines
    ↔ (∃ s', s.step t = .ok (.inl s') ∧ Line.ofTokensFrom s' ts = .ok lines)
      ∨ ∃ line rest, s.step t = .ok (.inr line) ∧ Line.ofTokens ts = .ok rest ∧ lines = line :: rest
  := by
  rw [Line.ofTokensFrom]
  rcases s.step t with e | s' | line
  · simp
  · simp
  · constructor
    · intro h
      obtain ⟨rest, hrest, rfl⟩ := Instruction.map_eq_ok h
      exact .inr ⟨line, rest, rfl, hrest, rfl⟩
    · rintro (⟨s', ⟨⟩, -⟩ | ⟨_, rest, ⟨⟩, hrest, rfl⟩)
      exact congrArg (Except.map (line :: ·)) hrest

/-! ### Lines are read -/

/-- Labels are read as long as no line end comes. -/
theorem ofTokensFrom_spellsLabels {ls us : List Token} (h : SpellsLabels ls us)
    (more : List Token) :
  Line.ofTokensFrom .start (us ++ more) = Line.ofTokensFrom (.labels ls) more
  := by
  induction h generalizing more with
  | nil => rfl
  | concat h ht hc ih =>
    rw [List.append_assoc, ih]
    simp only [List.cons_append, List.nil_append, Line.ofTokensFrom, LineState.step, ht, hc]

/-- The tokens of a line are read as the line. -/
theorem Line.Spells.ofTokensFrom {line : Line} {us : List Token} (h : line.Spells us)
    (more : List Token) :
  Line.ofTokensFrom .start (us ++ more) = (Line.ofTokensFrom .start more).map (line :: ·)
  := by
  obtain ⟨ls, statement⟩ := line
  obtain ⟨hlabels, hstatement, hn⟩ := h
  rw [List.append_assoc, List.append_assoc, ofTokensFrom_spellsLabels hlabels]
  cases hstatement with
  | none => simp [Line.ofTokensFrom, LineState.step, hn]
  | bare hm => simp [Line.ofTokensFrom, LineState.step, hn, hm]
  | operand hm ho =>
    cases ho with
    | integer ht | label ht => simp [Line.ofTokensFrom, LineState.step, hn, hm, ht]

/-- Tokens that are cut into lines are read as the lines. -/
theorem Derives.ofTokens {ts : List Token} {parts : List (Line × List Token)}
    (h : Derives ts parts) :
  Line.ofTokens ts = .ok (parts.map Prod.fst)
  := by
  obtain ⟨hspells, rfl⟩ := h
  induction parts with
  | nil => rfl
  | cons part parts ih =>
    obtain ⟨hpart, hparts⟩ := List.forall_mem_cons.mp hspells
    rw [List.flatMap_cons, Line.ofTokens, hpart.ofTokensFrom]
    change Except.map _ (Line.ofTokens _) = _
    rw [ih hparts]
    rfl

/-! ### What is read are lines -/

/-- What has been read of a line at a position within it. -/
inductive LineState.Spells : LineState → List Token → Prop where
  | labels {ls us : List Token} (h : SpellsLabels ls us) : Spells (.labels ls) us
  | named {ls us : List Token} {t : Token} (h : SpellsLabels ls us) (ht : t.kind = .identifier) :
    Spells (.named ls t) (us ++ [t])
  | opened {ls us : List Token} {opcode : Opcode} {m : Token} (h : SpellsLabels ls us)
    (hm : m.kind = .mnemonic opcode) : Spells (.opened ls opcode m) (us ++ [m])
  | complete {ls us ss : List Token} {s : Statement} (h : SpellsLabels ls us)
    (hs : SpellsStatement (some s) ss) : Spells (.complete ls s) (us ++ ss)

/-- A token leads on within a line. -/
theorem LineState.Spells.step {s s' : LineState} {us : List Token} {t : Token} (h : s.Spells us)
    (hs : s.step t = .ok (.inl s')) :
  s'.Spells (us ++ [t])
  := by
  obtain ⟨kind, image, place⟩ := t
  cases h with
  | labels h =>
    cases kind <;> cases hs
    · apply Spells.opened h rfl
    · apply Spells.named h rfl
  | named h ht =>
    cases kind <;> cases hs
    rw [List.append_assoc]
    apply Spells.labels (h.concat ht rfl)
  | opened h hm =>
    cases kind <;> cases hs
    · rw [List.append_assoc]
      apply Spells.complete h (.operand hm (.integer rfl))
    · rw [List.append_assoc]
      apply Spells.complete h (.operand hm (.label rfl))
  | complete h hstatement => cases kind <;> cases hs

/-- A token that ends a line completes the tokens that spell it. -/
theorem LineState.Spells.line {s : LineState} {line : Line} {us : List Token} {t : Token}
    (h : s.Spells us) (hs : s.step t = .ok (.inr line)) :
  line.Spells (us ++ [t])
  := by
  obtain ⟨kind, image, place⟩ := t
  cases h with
  | @labels ls us h =>
    cases kind <;> cases hs
    rw [← List.append_nil us]
    exact .intro h .none rfl
  | named h ht => cases kind <;> cases hs
  | opened h hm =>
    cases kind <;> cases hs
    exact .intro h (.bare hm) rfl
  | complete h hstatement =>
    cases kind <;> cases hs
    exact .intro h hstatement rfl

/-- Tokens that are read from a position within a line are, with those that have been read of the
line, cut into the lines. -/
theorem exists_derives_from {s : LineState} {us ts : List Token} {lines : List Line}
    (hs : s.Spells us) (h : Line.ofTokensFrom s ts = .ok lines) :
  ∃ parts, Derives (us ++ ts) parts ∧ parts.map Prod.fst = lines
  := by
  induction ts generalizing s us lines with
  | nil =>
    rw [Line.ofTokensFrom] at h
    split at h
    · next hstart =>
      cases h
      rw [hstart] at hs
      cases hs with
      | labels hlabels =>
        generalize hnil : ([] : List Token) = ls at hlabels
        cases hlabels with
        | nil => exact ⟨[], Derives.nil, rfl⟩
        | concat => simp at hnil
    · cases h
  | cons t ts ih =>
    rcases ofTokensFrom_cons_iff.mp h with ⟨s', hstep, h⟩ | ⟨line, rest, hstep, hrest, rfl⟩
    · have hparts := ih (hs.step hstep) h
      rwa [List.append_assoc] at hparts
    · obtain ⟨parts, hparts, rfl⟩ := ih (.labels .nil) hrest
      have hcons := hparts.cons (hs.line hstep)
      rw [List.append_assoc] at hcons
      exact ⟨_, hcons, rfl⟩

/-- Tokens are read as lines exactly if they are cut into them. -/
theorem ofTokens_eq_ok_iff {ts : List Token} {lines : List Line} :
  Line.ofTokens ts = .ok lines ↔ ∃ parts, Derives ts parts ∧ parts.map Prod.fst = lines
  := by
  constructor
  · apply exists_derives_from (.labels .nil)
  · rintro ⟨parts, hparts, rfl⟩
    apply hparts.ofTokens

/-! ### Lines are cut in one way -/

/-- A line end is the end of a line, if it can come. -/
theorem LineState.step_endsLine {s s' : LineState} {t : Token} (ht : t.endsLine = true) :
  s.step t ≠ .ok (.inl s')
  := by
  obtain ⟨kind, image, place⟩ := t
  have hkind : kind = .newline := of_decide_eq_true ht
  cases hkind
  cases s <;> rintro ⟨⟩

/-- No line end is among tokens. -/
def NoLineEnd (ts : List Token) : Prop := ∀ t ∈ ts, t.endsLine = false

theorem SpellsLabels.noLineEnd {ls us : List Token} (h : SpellsLabels ls us) :
  NoLineEnd us
  := by
  induction h with
  | nil => rintro _ ⟨⟩
  | concat _ ht hc ih =>
    intro t hmem
    rcases List.mem_append.mp hmem with hmem | hmem
    · apply ih t hmem
    · simp only [List.mem_cons, List.not_mem_nil, or_false] at hmem
      rcases hmem with rfl | rfl
      · simp [Token.endsLine, ht]
      · simp [Token.endsLine, hc]

theorem SpellsStatement.noLineEnd {s : Option Statement} {us : List Token}
    (h : SpellsStatement s us) :
  NoLineEnd us
  := by
  cases h with
  | none => rintro _ ⟨⟩
  | bare hm => simp [NoLineEnd, Token.endsLine, hm]
  | operand hm ho =>
    cases ho with
    | integer ht | label ht => simp [NoLineEnd, Token.endsLine, hm, ht]

/-- The tokens that spell a line have one line end, the last of them. -/
theorem Line.Spells.exists_concat {line : Line} {us : List Token} (h : line.Spells us) :
  ∃ a n, us = a ++ [n] ∧ NoLineEnd a ∧ n.endsLine = true
  := by
  obtain ⟨hlabels, hstatement, hn⟩ := h
  refine ⟨_, _, rfl, ?_, ?_⟩
  · intro t hmem
    rcases List.mem_append.mp hmem with hmem | hmem
    · apply hlabels.noLineEnd t hmem
    · apply hstatement.noLineEnd t hmem
  · simp [Token.endsLine, hn]

theorem NoLineEnd.takeWhile {a : List Token} (ha : NoLineEnd a) {n : Token}
    (hn : n.endsLine = true) (r : List Token) :
  (a ++ n :: r).takeWhile (fun t => !t.endsLine) = a
  := by
  rw [List.takeWhile_append_of_pos, List.takeWhile_cons_of_neg, List.append_nil]
  · simp [hn]
  · intro t ht
    rw [ha t ht]
    rfl

theorem NoLineEnd.countP {a : List Token} (ha : NoLineEnd a) :
  a.countP Token.endsLine = 0
  := by
  apply List.countP_eq_zero.mpr
  intro t ht
  rw [ha t ht]
  apply Bool.false_ne_true

/-- A line is determined by the tokens that spell it. -/
theorem Line.Spells.unique {line line' : Line} {us : List Token} (h : line.Spells us)
    (h' : line'.Spells us) :
  line = line'
  := by
  have hread := (h.ofTokensFrom []).symm.trans (h'.ofTokensFrom [])
  cases hread
  rfl

/-- Where a line ends among tokens is determined by them. -/
theorem Line.Spells.append_inj {line line' : Line} {us us' r r' : List Token}
    (h : line.Spells us) (h' : line'.Spells us') (heq : us ++ r = us' ++ r') :
  us = us' ∧ r = r'
  := by
  obtain ⟨a, n, rfl, ha, hn⟩ := h.exists_concat
  obtain ⟨a', n', rfl, ha', hn'⟩ := h'.exists_concat
  rw [List.append_assoc, List.append_assoc, List.singleton_append, List.singleton_append] at heq
  have haa : a = a' := by rw [← ha.takeWhile hn, heq, ha'.takeWhile hn']
  rw [haa] at heq ⊢
  obtain ⟨hnn, hr⟩ := List.cons.inj (List.append_cancel_left heq)
  rw [hnn]
  exact ⟨rfl, hr⟩

/-- Tokens are cut into lines in one way only. -/
theorem Derives.unique {ts : List Token} {parts parts' : List (Line × List Token)}
    (h : Derives ts parts) (h' : Derives ts parts') :
  parts' = parts
  := by
  obtain ⟨hspells, rfl⟩ := h
  obtain ⟨hspells', htokens⟩ := h'
  induction parts generalizing parts' with
  | nil =>
    cases parts' with
    | nil => rfl
    | cons part' parts' =>
      obtain ⟨a, n, ha, -, -⟩ := (hspells' part' List.mem_cons_self).exists_concat
      simp [ha] at htokens
  | cons part parts ih =>
    obtain ⟨hpart, hparts⟩ := List.forall_mem_cons.mp hspells
    cases parts' with
    | nil =>
      obtain ⟨a, n, ha, -, -⟩ := hpart.exists_concat
      simp [ha] at htokens
    | cons part' parts' =>
      obtain ⟨hpart', hparts'⟩ := List.forall_mem_cons.mp hspells'
      obtain ⟨htokens, hrest⟩ := hpart'.append_inj hpart htokens
      rw [htokens] at hpart'
      rw [Prod.ext (hpart'.unique hpart) htokens, ih hparts hparts' hrest]

theorem Line.Spells.countP {line : Line} {us : List Token} (h : line.Spells us) :
  us.countP Token.endsLine = 1
  := by
  obtain ⟨a, n, rfl, ha, hn⟩ := h.exists_concat
  rw [List.countP_append, ha.countP, List.countP_singleton, if_pos hn]

/-- There are as many lines as line ends. -/
theorem Derives.length_eq {ts : List Token} {parts : List (Line × List Token)}
    (h : Derives ts parts) :
  parts.length = ts.countP Token.endsLine
  := by
  obtain ⟨hspells, rfl⟩ := h
  induction parts with
  | nil => rfl
  | cons part parts ih =>
    obtain ⟨hpart, hparts⟩ := List.forall_mem_cons.mp hspells
    rw [List.flatMap_cons, List.countP_append, hpart.countP, ← ih hparts, List.length_cons,
      Nat.add_comm]

/-- Before a token there are as many line ends as lines above its line. -/
theorem Derives.exists_before {ts : List Token} {parts : List (Line × List Token)}
    (h : Derives ts parts) {k : Nat} {part : Line × List Token} (hk : parts[k]? = some part)
    {t : Token} (ht : t ∈ part.2) :
  ∃ before after, ts = before ++ t :: after ∧ before.countP Token.endsLine = k
  := by
  obtain ⟨hspells, rfl⟩ := h
  induction parts generalizing k with
  | nil => cases hk
  | cons part' parts ih =>
    obtain ⟨hpart, hparts⟩ := List.forall_mem_cons.mp hspells
    rw [List.flatMap_cons]
    cases k with
    | zero =>
      cases hk
      obtain ⟨a, n, ha, hline, hn⟩ := hpart.exists_concat
      rw [ha] at ht ⊢
      rcases List.mem_append.mp ht with ht | ht
      · obtain ⟨b, c, rfl⟩ := List.append_of_mem ht
        refine ⟨b, c ++ [n] ++ parts.flatMap Prod.snd, by simp, ?_⟩
        apply NoLineEnd.countP
        intro t' ht'
        apply hline t' (List.mem_append_left _ ht')
      · rw [List.mem_singleton.mp ht]
        exact ⟨a, parts.flatMap Prod.snd, by simp, hline.countP⟩
    | succ k =>
      rw [List.getElem?_cons_succ] at hk
      obtain ⟨before, after, hcut, hcount⟩ := ih hk hparts
      refine ⟨part'.2 ++ before, after, ?_, ?_⟩
      · rw [hcut, List.append_assoc]
      · rw [List.countP_append, hpart.countP, hcount, Nat.add_comm]

end Assembly

end StackMachine
