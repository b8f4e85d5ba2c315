import StackMachine.Proofs.Loading
import StackMachine.Proofs.Source.Heights
import StackMachine.Proofs.Source.Patching
import StackMachine.Proofs.Source.Slots

/-!
# Jumps of lowered code

The only jumps back are those that close the loops of the source, and each leads to the test of
its loop.  All other jumps lead forward, and no jump leads past the `halt` at the end.  So lowered
code is validated without faults.
-/

namespace StackMachine

namespace Source

/-! ### Loops -/

/-- A loop in lowered code: the test and its scope, the position of the test, and that of the last
instruction, which closes the loop. -/
structure PlacedLoop where
  scope : Scope
  test : Expr
  top : Nat
  last : Nat

/-- The code of the test lies at the top of a loop, followed by a jump behind the loop, and the
last instruction jumps back to the top. -/
structure PlacedLoop.IsClosed (l : PlacedLoop) (code : Array (Instruction Nat)) : Prop where
  test : CodeAt code l.top ((l.test.lower l.scope).code ++ [.jumpz (l.last + 1)])
  nonempty : (l.test.lower l.scope).code ≠ []
  jump : code[l.last]? = some (.jump l.top)
  le : l.top ≤ l.last

mutual

/-- The loops of a statement that is lowered in a scope and placed at a base position. -/
def Stmt.loops (scope : Scope) (base : Nat) : Stmt → List PlacedLoop
  | .block body _ => loopsAll scope base body
  | .whileLoop test body _ =>
    let first := base + (test.lower scope).code.length + 1
    let last := first + (body.lower scope first).code.length
    body.loops scope first ++ [⟨scope, test, base, last⟩]
  | .ifThen test yes _ => yes.loops scope (base + (test.lower scope).code.length + 1)
  | .ifThenElse test yes no _ =>
    let first := base + (test.lower scope).code.length + 1
    let second := first + (yes.lower scope first).code.length + 1
    yes.loops scope first ++ no.loops (yes.scopeAfter scope) second
  | .result .. => []
  | .declare .. => []
  | .function .. => []
  | .assign .. => []
  | .forLoop start test update body _ =>
    let inner := start.scopeAfter scope
    let top := base + (start.lower scope base).code.length
    let first := top + (test.lower inner).code.length + 1
    let second := first + (body.lower inner first).code.length
    let last := second + (update.lower (body.scopeAfter inner) second).code.length
    start.loops scope base ++ (body.loops inner first
      ++ update.loops (body.scopeAfter inner) second ++ [⟨inner, test, top, last⟩])

/-- The loops of statements one after another, placed at a base position. -/
def Stmt.loopsAll (scope : Scope) (base : Nat) : List Stmt → List PlacedLoop
  | [] => []
  | s :: r =>
    s.loops scope base
      ++ loopsAll (s.scopeAfter scope) (base + (s.lower scope base).code.length) r

end

namespace Site

/-! ### Directed stretches -/

/-- A stretch of the code whose jumps lead forward, but for those that close loops. -/
structure Directed (S : Site) (loops : List PlacedLoop) (base exit : Nat) : Prop where
  closed : ∀ l ∈ loops, l.IsClosed S.code
  forward : ∀ n i t, base ≤ n → n < exit → S.code[n]? = some i → i.target? = some t →
    n < t ∨ ∃ l ∈ loops, l.last = n

variable {S : Site} {loops loops' : List PlacedLoop} {base mid last exit : Nat}

theorem Directed.trans (h : S.Directed loops base mid) (h' : S.Directed loops' mid exit) :
  S.Directed (loops ++ loops') base exit
  := by
  constructor
  · intro l hl
    apply (List.mem_append.mp hl).elim (h.closed l) (h'.closed l)
  · intro n i t hbase hexit hi ht
    by_cases hn : n < mid
    · apply (h.forward n i t hbase hn hi ht).imp_right
      rintro ⟨l, hl, hlast⟩
      exact ⟨l, List.mem_append_left _ hl, hlast⟩
    · apply (h'.forward n i t (Nat.not_lt.mp hn) hexit hi ht).imp_right
      rintro ⟨l, hl, hlast⟩
      exact ⟨l, List.mem_append_right _ hl, hlast⟩

/-- An instruction that does not jump back is a stretch by itself. -/
theorem directed_single {i : Instruction Nat} (hi : S.code[base]? = some i)
    (h : ∀ t, i.target? = some t → base < t) :
  S.Directed [] base (base + 1)
  := by
  constructor
  · rintro _ ⟨⟩
  · intro n j t hbase hexit hj ht
    obtain rfl : base = n := by omega
    rw [hi] at hj
    cases hj
    left
    apply h t ht

theorem directed_plain {i : Instruction Nat} (hi : S.code[base]? = some i)
    (hplain : i.target? = none) :
  S.Directed [] base (base + 1)
  := by
  apply directed_single hi
  rw [hplain]
  rintro _ ⟨⟩

/-- A jump forward is a stretch by itself. -/
theorem directed_jump {i : Instruction Nat} {target : Nat} (hi : S.code[base]? = some i)
    (htarget : i.target? = some target) (hlt : base < target) :
  S.Directed [] base (base + 1)
  := by
  apply directed_single hi
  rw [htarget]
  rintro _ ⟨⟩
  apply hlt

/-- The jump that closes a loop is a stretch by itself. -/
theorem directed_close {l : PlacedLoop} (h : l.IsClosed S.code) :
  S.Directed [l] l.last (l.last + 1)
  := by
  constructor
  · intro l' hl
    rw [List.mem_singleton.mp hl]
    apply h
  · intro n i t hbase hexit hi ht
    right
    use l, List.mem_singleton_self l
    omega

theorem directed_readSlot {slot : Nat} (h : CodeAt S.code base (readSlot slot)) :
  S.Directed [] base (base + 2)
  := by
  obtain ⟨hloadc, hload, -⟩ := h
  apply (directed_plain hloadc rfl).trans (directed_plain hload rfl)

theorem directed_writeSlot {slot : Nat} (h : CodeAt S.code base (writeSlot slot)) :
  S.Directed [] base (base + 3)
  := by
  obtain ⟨hloadc, hstore, hpop, -⟩ := h
  apply (directed_plain hloadc rfl).trans
  apply (directed_plain hstore rfl).trans (directed_plain hpop rfl)

end Site

open Site

variable {S : Site}

/-! ### Expressions -/

/-- The code of an expression does not jump. -/
theorem Expr.directed {scope : Scope} :
    ∀ (e : Expr) {base exit : Nat}, S.Places base (e.lower scope) exit → S.Directed [] base exit
  | .name n, _, _, hplace => by
    obtain ⟨slot, -, hcode, rfl⟩ := hplace.name
    apply directed_readSlot hcode
  | .int .., _, _, hplace => by
    obtain ⟨hloadc, rfl⟩ := hplace.int
    apply directed_plain hloadc rfl
  | .bool .., _, _, hplace => by
    obtain rfl := hplace.exit
    apply directed_plain hplace.getElem? rfl
  | .binary op left right _, _, _, hplace => by
    obtain ⟨mid, last, hleft, hright, hop, rfl⟩ := hplace.binary
    apply ((directed left hleft).trans (directed right hright)).trans
    apply directed_plain hop rfl
  | .unary op operand _, _, _, hplace => by
    obtain ⟨last, hoperand, hop, rfl⟩ := hplace.unary
    apply (directed operand hoperand).trans (directed_plain hop rfl)
  | .call .., _, _, hplace => by
    rw [lower] at hplace
    cases not_places_ofProblem hplace

/-- The code of an expression is not empty. -/
theorem Expr.lt_of_places {scope : Scope} {base exit : Nat} {e : Expr}
    (hplace : S.Places base (e.lower scope) exit) :
  base < exit
  := by
  cases e with
  | name n =>
    obtain ⟨_, -, -, rfl⟩ := hplace.name
    omega
  | int value span =>
    obtain ⟨-, rfl⟩ := hplace.int
    omega
  | bool value span =>
    obtain rfl := hplace.exit
    apply Nat.lt_succ_self
  | binary op left right span =>
    obtain ⟨mid, last, hleft, hright, -, rfl⟩ := hplace.binary
    have := hleft.le
    have := hright.le
    omega
  | unary op operand span =>
    obtain ⟨last, hoperand, -, rfl⟩ := hplace.unary
    have := hoperand.le
    omega
  | call function arguments span =>
    rw [lower] at hplace
    cases not_places_ofProblem hplace

/-! ### Statements -/

/-- A placed loop is closed. -/
theorem Site.Loops.isClosed {scope : Scope} {test : Expr} {body : List Stmt}
    {base mid last exit : Nat} (h : S.Loops scope test body base mid last exit) :
  PlacedLoop.IsClosed ⟨scope, test, base, last⟩ S.code
  := by
  have hmid := h.test.exit
  have hlt := Expr.lt_of_places h.test
  constructor
  · apply codeAt_append.mpr
    use h.test.code
    rw [hmid, h.exit]
    exact ⟨h.jumpz, trivial⟩
  · rintro hnil
    rw [hnil] at hmid
    apply Nat.ne_of_lt hlt hmid
  · apply h.jump
  · have := h.body.le
    change base ≤ last
    omega

/-- A test and a body that are executed again and again jump back at their end and within the
body. -/
theorem Site.Loops.directed {scope : Scope} {test : Expr} {body : List Stmt}
    {loops : List PlacedLoop} {base mid last exit : Nat}
    (h : S.Loops scope test body base mid last exit) (hbody : S.Directed loops (mid + 1) last) :
  S.Directed (loops ++ [⟨scope, test, base, last⟩]) base exit
  := by
  have hlt : mid < exit := by
    have := h.body.le
    have := h.exit
    omega
  have htest := (test.directed h.test).trans (directed_jump h.jumpz rfl hlt)
  obtain rfl := h.exit
  apply (htest.trans hbody).trans (directed_close h.isClosed)

mutual

/-- The code of a statement jumps back only to close its loops. -/
theorem Stmt.directed :
    ∀ (s : Stmt) {scope : Scope} {base exit : Nat}, S.Places base (s.lower scope base) exit →
      S.Directed (s.loops scope base) base exit
  | .block body _, _, _, _, hplace => by
    rw [lower] at hplace
    rw [loops]
    apply directedAll body hplace
  | .whileLoop test body _, _, _, _, hplace => by
    obtain ⟨mid, last, h⟩ := hplace.whileLoop
    have hbody := h.body
    rw [lowerAll_singleton] at hbody
    simp only [loops, h.test.exit, hbody.exit]
    apply h.directed (directed body hbody)
  | .ifThen test yes _, _, _, exit, hplace => by
    obtain ⟨mid, htest, hjumpz, hyes⟩ := hplace.ifThen
    have hlt : mid < exit := hyes.le
    simp only [loops, htest.exit]
    have hfirst := (test.directed htest).trans (directed_jump hjumpz rfl hlt)
    apply hfirst.trans (directed yes hyes)
  | .ifThenElse test yes no _, _, _, exit, hplace => by
    obtain ⟨mid, last, htest, hjumpz, hyes, hjump, hno⟩ := hplace.ifThenElse
    have hlast : last < exit := hno.le
    have hlt : mid < last + 1 := Nat.lt_succ_of_lt hyes.le
    simp only [loops, htest.exit, hyes.exit]
    have hfirst := (test.directed htest).trans (directed_jump hjumpz rfl hlt)
    have hsecond := (hfirst.trans (directed yes hyes)).trans (directed_jump hjump rfl hlast)
    rw [List.append_nil] at hsecond
    apply hsecond.trans (directed no hno)
  | .result none _, _, _, _, hplace => by
    obtain rfl := hplace.exit
    rw [loops]
    apply directed_plain hplace.getElem? rfl
  | .result (some value) _, _, _, _, hplace => by
    rw [lower] at hplace
    obtain ⟨mid, hvalue, hhalt⟩ := places_append.mp hplace
    obtain rfl := hhalt.exit
    rw [loops]
    apply (value.directed hvalue).trans (directed_plain hhalt.getElem? rfl)
  | .declare name value _, _, _, _, hplace => by
    obtain ⟨mid, slot, hvalue, -, hwrite, rfl⟩ := hplace.declare
    rw [loops]
    apply (value.directed hvalue).trans (directed_writeSlot hwrite)
  | .function .., _, _, _, hplace => by
    rw [lower] at hplace
    cases not_places_ofProblem hplace
  | .assign target value _, _, _, _, hplace => by
    obtain ⟨name, rfl⟩ := hplace.exists_name
    obtain ⟨mid, slot, hvalue, -, hwrite, rfl⟩ := hplace.assign
    rw [loops]
    apply (value.directed hvalue).trans (directed_writeSlot hwrite)
  | .forLoop start test update body _, _, _, _, hplace => by
    obtain ⟨top, mid, last, hstart, h⟩ := hplace.forLoop
    obtain ⟨middle, hbody, hupdate⟩ := h.body.cons
    rw [lowerAll_singleton] at hupdate
    simp only [loops, hstart.exit, h.test.exit, hbody.exit, hupdate.exit]
    apply (directed start hstart).trans
    apply h.directed
    apply (directed body hbody).trans (directed update hupdate)

/-- The code of statements jumps back only to close their loops. -/
theorem Stmt.directedAll :
    ∀ (l : List Stmt) {scope : Scope} {base exit : Nat},
      S.Places base (Stmt.lowerAll scope base l) exit →
      S.Directed (Stmt.loopsAll scope base l) base exit
  | [], _, _, _, hplace => by
    obtain rfl := hplace.nil
    rw [loopsAll]
    constructor
    · rintro _ ⟨⟩
    · intro n i t hbase hexit
      exact absurd hexit (Nat.not_lt.mpr hbase)
  | s :: rest, _, _, _, hplace => by
    obtain ⟨mid, hs, hrest⟩ := hplace.cons
    simp only [loopsAll, hs.exit]
    apply (directed s hs).trans (directedAll rest hrest)

end

/-! ### Programs -/

section

variable {statements : List Stmt} {code : Code}

/-- Lowered code is directed up to the `halt` at its end. -/
theorem directed_of_lower (hlower : lower statements = .ok code) :
  ∃ last, code.length = last + 1 ∧ code[last]? = some .halt
    ∧ (∀ l ∈ Stmt.loopsAll [] 0 statements, l.IsClosed code.toArray)
    ∧ ∀ n i t, code[n]? = some i → i.target? = some t →
      n < t ∨ ∃ l ∈ Stmt.loopsAll [] 0 statements, l.last = n
  := by
  -- only the code of a site matters here
  let S := site statements code ⟨none, (Stmt.declaredAll statements).dedup.length, 0⟩ rfl
    (Nat.le_refl _)
  obtain ⟨exit, hplace, hhalt⟩ : ∃ exit, S.Places 0 (Stmt.lowerAll [] 0 statements) exit
      ∧ S.code[exit]? = some .halt := places_site hlower rfl (Nat.le_refl _)
  have hlength : code.length = exit + 1 := by
    obtain ⟨-, hcode⟩ := lower_eq_ok hlower
    have hexit := hplace.exit
    rw [hcode, List.length_append, List.length_singleton]
    omega
  have hdirected := (Stmt.directedAll statements hplace).trans (directed_plain hhalt rfl)
  rw [List.append_nil] at hdirected
  have hget (n : Nat) : S.code[n]? = code[n]? := List.getElem?_toArray
  refine ⟨exit, hlength, ?_, hdirected.closed, ?_⟩
  · rw [← hget, hhalt]
  · intro n i t hi ht
    have hn := (List.getElem?_eq_some_iff.mp hi).1
    rw [← hget] at hi
    apply hdirected.forward n i t (Nat.zero_le n) (by omega) hi ht

/-- No target of lowered code is past its end. -/
theorem target_lt_of_lower (hlower : lower statements = .ok code) {n t : Nat}
    {i : Instruction Nat} (hi : code[n]? = some i) (ht : i.target? = some t) :
  t < code.length
  := by
  rw [← List.getElem?_toArray] at hi
  apply (((disciplined_of_lower hlower).instruction n i hi).target t ht).1

/-- The constants of lowered code are words exactly if the slots of the declared names are. -/
theorem isWellFormed_of_lower_iff (hlower : lower statements = .ok code) :
  (∀ i ∈ code, i.IsWellFormed) ↔ (Stmt.declaredAll statements).dedup.length ≤ 2 ^ 63
  := by
  constructor
  · intro h
    by_contra hlarge
    obtain ⟨a, ha, hslot⟩ := exists_access_iff.mpr (Nat.not_le.mp hlarge)
    obtain ⟨slot, hslot', hmem⟩ := (accesses_lower hlower).exists_loadc ha
    rw [← hslot.unique hslot'] at hmem
    cases (h _ hmem).2
  · intro h
    apply isWellFormed_of_isSmall hlower
    rw [Scope.IsSmall, Stmt.length_scopeAfterAll, Word.greatest]
    omega

/-- Lowered code is validated without faults unless a slot is no word. -/
theorem validate_of_lower_iff (hlower : lower statements = .ok code) :
  validate code.toProgram.toData = .ok []
    ↔ (Stmt.declaredAll statements).dedup.length ≤ 2 ^ 63
  := by
  rw [Code.validate_toProgram_iff, isWellFormed_of_lower_iff hlower]
  constructor
  · rintro ⟨h, -⟩
    apply h
  · intro h
    use h
    constructor
    · rintro rfl
      obtain ⟨_, hlength, -⟩ := directed_of_lower hlower
      cases hlength
    · intro i hi t ht
      obtain ⟨n, hn⟩ := List.getElem?_of_mem hi
      apply target_lt_of_lower hlower hn ht

end

/-- Lowering with placeholders never fails to patch one, and returns what lowering returns.
Lowered code is validated without faults: only a source with more than `2 ^ 63` different declared
names, if there were one, would have a slot that is no word.  The code ends in `halt`.  A `jumpz`
leads forward.  Each loop of the source is closed by a jump to the first instruction of its test,
which is not behind the jump; any other jump leads forward.  No jump leads past the `halt`. -/
theorem patching_complete (statements : List Stmt) :
  emitProgram statements = .ok (lower statements)
  ∧ ∀ code, lower statements = .ok code →
    (validate code.toProgram.toData = .ok []
      ↔ (Stmt.declaredAll statements).dedup.length ≤ 2 ^ 63)
    ∧ (∀ n t : Nat, code[n]? = some (.jumpz t) → n < t)
    ∧ (∀ l ∈ Stmt.loopsAll [] 0 statements, l.IsClosed code.toArray)
    ∧ (∀ n t : Nat, code[n]? = some (.jump t) →
      (∀ l ∈ Stmt.loopsAll [] 0 statements, l.last ≠ n) → n < t)
    ∧ ∃ last, code.length = last + 1 ∧ code[last]? = some .halt
      ∧ ∀ (n : Nat) i t, code[n]? = some i → i.target? = some t → t ≤ last
  := by
  use emitProgram_eq statements
  intro code hlower
  obtain ⟨last, hlength, hhalt, hclosed, hforward⟩ := directed_of_lower hlower
  refine ⟨validate_of_lower_iff hlower, ?jumpz, hclosed, ?jump, last, hlength, hhalt, ?target⟩
  case jumpz =>
    intro n t hn
    rcases hforward n _ t hn rfl with hlt | ⟨l, hl, rfl⟩
    · apply hlt
    · have hjump := (hclosed l hl).jump
      rw [List.getElem?_toArray, hn] at hjump
      cases hjump
  case jump =>
    intro n t hn hnone
    apply (hforward n _ t hn rfl).resolve_right
    rintro ⟨l, hl, hlast⟩
    apply hnone l hl hlast
  case target =>
    intro n i t hi ht
    have := target_lt_of_lower hlower hi ht
    omega

/-- A program that counts up to 3 in a loop, with a loop in the second of two branches. -/
def nested : List Stmt :=
  let count : Expr := .name { text := "i" }
  let next : Stmt := .assign count (.binary .add count (.int 1 none) none) none
  [.forLoop (.declare "i" (.int 0 none) none) (.binary .lt count (.int 3 none) none) next
    (.ifThenElse count (.block [] none) (.whileLoop (.unary .not count none) next none) none)
    none]

/-- The inner loop is closed by a jump back to 13 and the outer one by a jump back to 4; the jump
between the branches leads forward. -/
theorem patching_complete_nested :
  ∃ code, lower nested = .ok code ∧ emitProgram nested = .ok (.ok code)
    ∧ validate code.toProgram.toData = .ok []
    ∧ (Stmt.loopsAll [] 0 nested).map (fun l => (l.top, l.last)) = [(13, 24), (4, 32)]
    ∧ (∀ l ∈ Stmt.loopsAll [] 0 nested, l.IsClosed code.toArray)
    ∧ code[12]? = some (.jump 25) ∧ 12 < 25
  := by
  have hlower : lower nested = .ok _ := rfl
  have hdeclared : (Stmt.declaredAll nested).dedup.length ≤ 2 ^ 63 := by decide
  obtain ⟨hemit, h⟩ := patching_complete nested
  obtain ⟨hvalidate, -, hclosed, hjump, -⟩ := h _ hlower
  rw [hlower] at hemit
  refine ⟨_, hlower, hemit, hvalidate.mpr hdeclared, rfl, hclosed, rfl, ?_⟩
  apply hjump 12 25 rfl
  decide

end Source

end StackMachine
