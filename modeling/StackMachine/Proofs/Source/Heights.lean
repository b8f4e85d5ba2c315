import StackMachine.Proofs.Machine.Discipline
import StackMachine.Proofs.Source.Correctness

/-!
# Heights of lowered code

The code of an expression leaves one word more on the stack than it finds, and needs no more
room than the expression has nodes.  The code of a statement begins and ends with an empty
stack, and so does every part of it that a jump leads to.  So lowered code is disciplined.
-/

namespace StackMachine

/-- The instructions that neither jump nor use the memory or the heap. -/
def Instruction.IsPlain {τ : Type} : Instruction τ → Prop
  | loadc _ => True
  | pop => True
  | halt => True
  | binary _ => True
  | unary _ => True
  | _ => False

namespace Source

/-! ### Sizes of expressions -/

mutual

/-- The number of nodes of an expression. -/
def Expr.nodes : Expr → Nat
  | .name _ => 1
  | .int .. => 1
  | .bool .. => 1
  | .binary _ left right _ => left.nodes + right.nodes + 1
  | .unary _ operand _ => operand.nodes + 1
  | .call _ arguments _ => nodesAll arguments + 1

/-- The number of nodes of expressions together. -/
def Expr.nodesAll : List Expr → Nat
  | [] => 0
  | e :: r => e.nodes + nodesAll r

end

mutual

/-- The number of nodes of the largest expression in a statement. -/
def Stmt.largest : Stmt → Nat
  | .block body _ => largestAll body
  | .whileLoop test body _ => max test.nodes body.largest
  | .ifThen test yes _ => max test.nodes yes.largest
  | .ifThenElse test yes no _ => max test.nodes (max yes.largest no.largest)
  | .result none _ => 0
  | .result (some value) _ => value.nodes
  | .declare _ value _ => value.nodes
  | .function _ _ body _ => body.largest
  | .assign target value _ => max target.nodes value.nodes
  | .forLoop start test update body _ =>
    max (max start.largest test.nodes) (max update.largest body.largest)

/-- The number of nodes of the largest expression in statements. -/
def Stmt.largestAll : List Stmt → Nat
  | [] => 0
  | s :: r => max s.largest (largestAll r)

end

theorem Expr.nodes_pos (e : Expr) :
  0 < e.nodes
  := by
  cases e <;> rw [nodes] <;> omega

namespace Site

/-! ### Balanced stretches -/

/-- A stretch of the code in which every instruction fits the heights, and the height at its
end. -/
structure Balanced (S : Site) (bound base exit height : Nat) : Prop where
  height : heightAt S.code exit = height
  instruction : ∀ n i, base ≤ n → n < exit → S.code[n]? = some i →
    FitsAt S.code S.scope.length bound n i

variable {S : Site} {bound base mid exit k l : Nat}

theorem Balanced.trans (h : S.Balanced bound base mid k) (h' : S.Balanced bound mid exit l) :
  S.Balanced bound base exit l
  := by
  use h'.height
  intro n i hbase hexit hi
  by_cases hn : n < mid
  · apply h.instruction n i hbase hn hi
  · apply h'.instruction n i (Nat.not_lt.mp hn) hexit hi

/-- An instruction that fits the heights is a stretch by itself. -/
theorem balanced_single {i : Instruction Nat} (hi : S.code[base]? = some i)
    (hk : heightAt S.code base = k)
    (h : FitsAt S.code S.scope.length bound base i) :
  S.Balanced bound base (base + 1) (i.heightAfter k)
  := by
  constructor
  · rw [heightAt_succ hi, hk]
  · intro n j hbase hexit hj
    obtain rfl : base = n := by omega
    rw [hi] at hj
    cases hj
    apply h

/-- An instruction that works on the stack alone fits the heights if it finds its words. -/
theorem balanced_plain {i : Instruction Nat} (hi : S.code[base]? = some i)
    (hplain : i.IsPlain) (hk : heightAt S.code base = k) (hneeds : i.needs ≤ k)
    (hbound : k ≤ bound) :
  S.Balanced bound base (base + 1) (i.heightAfter k)
  := by
  subst hk
  apply balanced_single hi rfl
  refine ⟨hneeds, hbound, ?_, ?_, ?_⟩
  · intro t ht
    cases i <;> cases ht <;> cases hplain
  · rintro (rfl | rfl)
    · cases hplain
    · cases hplain
  · rintro rfl
    cases hplain

/-- An instruction that uses the memory behind one that pushes a slot. -/
theorem balanced_memory {i : Instruction Nat} {slot : Nat}
    (hloadc : S.code[base]? = some (.loadc slot)) (hi : S.code[base + 1]? = some i)
    (hmemory : i.UsesMemory) (hslot : slot < S.scope.length) (hk : heightAt S.code base = k)
    (hneeds : i.needs ≤ k + 1) (hbound : k + 1 ≤ bound) :
  S.Balanced bound base (base + 2) (i.heightAfter (k + 1))
  := by
  have hfirst := balanced_plain hloadc trivial hk (Nat.zero_le k) (Nat.le_of_succ_le hbound)
  apply hfirst.trans
  have hheight := hfirst.height
  apply balanced_single hi hheight
  constructor
  · rw [hheight]
    apply hneeds
  · rw [hheight]
    apply hbound
  · intro t ht
    rcases hmemory with rfl | rfl
    · cases ht
    · cases ht
  · intro _
    exact ⟨base, slot, rfl, hslot, hloadc⟩
  · rintro rfl
    rcases hmemory with ⟨⟨⟩⟩ | ⟨⟨⟩⟩

/-- Code that reads a slot pushes a word. -/
theorem balanced_readSlot {slot : Nat} (h : CodeAt S.code base (readSlot slot))
    (hslot : slot < S.scope.length) (hk : heightAt S.code base = k) (hbound : k + 1 ≤ bound) :
  S.Balanced bound base (base + 2) (k + 1)
  := by
  obtain ⟨hloadc, hload, -⟩ := h
  apply balanced_memory hloadc hload (.inl rfl) hslot hk (Nat.le_add_left _ _) hbound

/-- Code that writes a slot pops a word. -/
theorem balanced_writeSlot {slot : Nat} (h : CodeAt S.code base (writeSlot slot))
    (hslot : slot < S.scope.length) (hk : heightAt S.code base = 1) (hbound : 2 ≤ bound) :
  S.Balanced bound base (base + 3) 0
  := by
  obtain ⟨hloadc, hstore, hpop, -⟩ := h
  have hfirst := balanced_memory hloadc hstore (.inr rfl) hslot hk (Nat.le_refl 2) hbound
  apply hfirst.trans
  apply balanced_plain hpop trivial hfirst.height (Nat.le_refl 1) (Nat.le_of_succ_le hbound)

/-- A jump that finds just the words that it needs leaves the stack empty. -/
theorem heightAfter_needs {i : Instruction Nat} {target : Nat}
    (htarget : i.target? = some target) :
  i.heightAfter i.needs = 0
  := by
  cases i <;> cases htarget <;> rfl

theorem heightAt_behind_jump {i : Instruction Nat} {target : Nat}
    (hi : S.code[base]? = some i) (htarget : i.target? = some target)
    (hneeds : heightAt S.code base = i.needs) :
  heightAt S.code (base + 1) = 0
  := by
  rw [heightAt_succ hi, hneeds, heightAfter_needs htarget]

/-- A jump with just the words that it needs to where the stack is empty. -/
theorem balanced_jump {i : Instruction Nat} {target : Nat} (hi : S.code[base]? = some i)
    (htarget : i.target? = some target) (hneeds : heightAt S.code base = i.needs)
    (hbound : i.needs ≤ bound) (hsize : target < S.code.size)
    (hheight : heightAt S.code target = 0) :
  S.Balanced bound base (base + 1) 0
  := by
  rw [← heightAfter_needs htarget]
  apply balanced_single hi hneeds
  constructor
  · apply Nat.le_of_eq hneeds.symm
  · rw [hneeds]
    apply hbound
  · intro t ht
    rw [htarget] at ht
    cases ht
    rw [hneeds]
    exact ⟨hsize, hheight, heightAfter_needs htarget⟩
  · rintro (rfl | rfl)
    · cases htarget
    · cases htarget
  · rintro rfl
    cases htarget

theorem Places.le {p : Piece} (h : S.Places base p exit) :
  base ≤ exit
  := by
  have := h.exit
  omega

end Site

open Site

/-! ### Expressions -/

variable {S : Site} {bound : Nat}

/-- The code of an expression leaves one word more on the stack than it finds. -/
theorem Expr.balanced {scope : Scope} (hscope : scope <+: S.scope) :
    ∀ (e : Expr) {base exit k : Nat}, S.Places base (e.lower scope) exit →
      heightAt S.code base = k → k + e.nodes ≤ bound → S.Balanced bound base exit (k + 1)
  | .name n, _, _, _, hplace, hk, hbound => by
    obtain ⟨slot, hslot, hcode, rfl⟩ := hplace.name
    have hlt := Nat.lt_of_lt_of_le (Scope.lt_of_slot? hslot) hscope.length_le
    rw [nodes] at hbound
    apply balanced_readSlot hcode hlt hk hbound
  | .int .., _, _, _, hplace, hk, hbound => by
    obtain ⟨hloadc, rfl⟩ := hplace.int
    rw [nodes] at hbound
    apply balanced_plain hloadc trivial hk (Nat.zero_le _) (Nat.le_of_succ_le hbound)
  | .bool .., _, _, _, hplace, hk, hbound => by
    obtain rfl := hplace.exit
    rw [nodes] at hbound
    apply balanced_plain hplace.getElem? trivial hk (Nat.zero_le _) (Nat.le_of_succ_le hbound)
  | .binary op left right _, _, _, k, hplace, hk, hbound => by
    obtain ⟨mid, last, hleft, hright, hop, rfl⟩ := hplace.binary
    have hpos := left.nodes_pos
    have hpos' := right.nodes_pos
    rw [nodes] at hbound
    have hfirst := balanced hscope left hleft hk (by omega)
    have hsecond := balanced hscope right hright hfirst.height (by omega)
    apply (hfirst.trans hsecond).trans
    apply balanced_plain hop trivial hsecond.height (Nat.le_add_left 2 k) (by omega)
  | .unary op operand _, _, _, k, hplace, hk, hbound => by
    obtain ⟨last, hoperand, hop, rfl⟩ := hplace.unary
    have hpos := operand.nodes_pos
    rw [nodes] at hbound
    have hfirst := balanced hscope operand hoperand hk (by omega)
    apply hfirst.trans
    apply balanced_plain hop trivial hfirst.height (Nat.le_add_left 1 k) (by omega)
  | .call .., _, _, _, hplace, _, _ => by
    rw [lower] at hplace
    cases not_places_ofProblem hplace

section

variable {scope : Scope} {test : Expr} {base mid target : Nat}

/-- Behind a test and its jump the stack is empty. -/
theorem Expr.heightAt_behind (hscope : scope <+: S.scope)
    (htest : S.Places base (test.lower scope) mid)
    (hjumpz : S.code[mid]? = some (.jumpz target)) (hbase : heightAt S.code base = 0) :
  heightAt S.code (mid + 1) = 0
  := by
  have htest := test.balanced hscope htest hbase (Nat.le_refl _)
  apply heightAt_behind_jump hjumpz rfl htest.height

/-- A test and its jump to where the stack is empty leave the stack empty. -/
theorem Expr.balanced_test (hscope : scope <+: S.scope)
    (htest : S.Places base (test.lower scope) mid)
    (hjumpz : S.code[mid]? = some (.jumpz target)) (hbase : heightAt S.code base = 0)
    (hbound : test.nodes < bound) (hsize : target < S.code.size)
    (hheight : heightAt S.code target = 0) :
  S.Balanced bound base (mid + 1) 0
  := by
  have htest := test.balanced hscope htest hbase (by omega : 0 + test.nodes ≤ bound)
  apply htest.trans
  apply balanced_jump hjumpz rfl htest.height (Nat.lt_of_le_of_lt (Nat.zero_le _) hbound) hsize
    hheight

/-- A value that is written to a slot leaves the stack empty. -/
theorem Expr.balanced_write {value : Expr} {slot : Nat} (hscope : scope <+: S.scope)
    (hvalue : S.Places base (value.lower scope) mid) (hwrite : CodeAt S.code mid (writeSlot slot))
    (hslot : slot < S.scope.length) (hbase : heightAt S.code base = 0)
    (hbound : value.nodes < bound) :
  S.Balanced bound base (mid + 3) 0
  := by
  have hpos := value.nodes_pos
  have hvalue := value.balanced hscope hvalue hbase (by omega : 0 + value.nodes ≤ bound)
  apply hvalue.trans
  apply balanced_writeSlot hwrite hslot hvalue.height (by omega)

end

/-! ### Statements -/

/-- A test, a body and the jumps behind them begin and end with an empty stack if the body
does. -/
theorem Site.Loops.balanced {scope : Scope} {test : Expr} {body : List Stmt}
    {base mid last exit : Nat} (h : S.Loops scope test body base mid last exit)
    (hscope : scope <+: S.scope) (hbase : heightAt S.code base = 0)
    (hexit : exit < S.code.size) (htest : test.nodes < bound)
    (hbody : heightAt S.code (mid + 1) = 0 → S.Balanced bound (mid + 1) last 0) :
  S.Balanced bound base exit 0
  := by
  have hsecond := hbody (Expr.heightAt_behind hscope h.test h.jumpz hbase)
  have hlast := heightAt_behind_jump h.jump rfl hsecond.height
  have hsize : base < S.code.size := by
    have := h.test.le
    have := h.body.le
    have := h.exit
    omega
  obtain rfl := h.exit
  apply (Expr.balanced_test hscope h.test h.jumpz hbase htest hexit hlast).trans
  apply hsecond.trans
  apply balanced_jump h.jump rfl hsecond.height (Nat.zero_le _) hsize hbase

/-- A test, two branches and the jumps behind them begin and end with an empty stack if the branches
do. -/
theorem Site.balanced_ifThenElse {scope : Scope} {test : Expr} {yes no : Stmt}
    {span : Option Span} {base exit : Nat} (hscope : yes.scopeAfter scope <+: S.scope)
    (hplace : S.Places base ((Stmt.ifThenElse test yes no span).lower scope base) exit)
    (hbase : heightAt S.code base = 0) (hexit : exit < S.code.size) (htest : test.nodes < bound)
    (hyes : ∀ top last, last < S.code.size → S.Places top (yes.lower scope top) last →
      heightAt S.code top = 0 → S.Balanced bound top last 0)
    (hno : ∀ top, S.Places top (no.lower (yes.scopeAfter scope) top) exit →
      heightAt S.code top = 0 → S.Balanced bound top exit 0) :
  S.Balanced bound base exit 0
  := by
  obtain ⟨mid, last, htest', hjumpz, hyes', hjump, hno'⟩ := hplace.ifThenElse
  have hprefix := (Stmt.prefix_scopeAfter _ yes).trans hscope
  have hle := hno'.le
  have hmid := test.heightAt_behind hprefix htest' hjumpz hbase
  have hsecond := hyes _ _ (by omega) hyes' hmid
  have hlast := heightAt_behind_jump hjump rfl hsecond.height
  have hthird := hno _ hno' hlast
  have hfirst := test.balanced_test hprefix htest' hjumpz hbase htest (by omega) hlast
  have hskip := balanced_jump hjump rfl hsecond.height (Nat.zero_le bound) hexit hthird.height
  apply hfirst.trans
  apply hsecond.trans
  apply hskip.trans hthird

mutual

/-- The code of a statement begins and ends with an empty stack. -/
theorem Stmt.balanced :
    ∀ (s : Stmt) {scope : Scope} {base exit : Nat}, s.scopeAfter scope <+: S.scope →
      S.Places base (s.lower scope base) exit → heightAt S.code base = 0 →
      exit < S.code.size → s.largest < bound → S.Balanced bound base exit 0
  | .block body _, _, _, _, hscope, hplace, hbase, hexit, hbound => by
    rw [scopeAfter] at hscope
    rw [lower] at hplace
    rw [largest] at hbound
    apply balancedAll body hscope hplace hbase hexit hbound
  | .whileLoop test body _, _, _, _, hscope, hplace, hbase, hexit, hbound => by
    obtain ⟨mid, last, h⟩ := hplace.whileLoop
    rw [scopeAfter] at hscope
    rw [largest] at hbound
    have hplace' := h.body
    rw [lowerAll_singleton] at hplace'
    have hlast := h.exit
    apply h.balanced ((prefix_scopeAfter _ body).trans hscope) hbase hexit (by omega)
    intro hmid
    apply balanced body hscope hplace' hmid (by omega) (by omega)
  | .ifThen test yes _, _, _, _, hscope, hplace, hbase, hexit, hbound => by
    obtain ⟨mid, htest, hjumpz, hyes⟩ := hplace.ifThen
    rw [scopeAfter] at hscope
    rw [largest] at hbound
    have hprefix := (prefix_scopeAfter _ yes).trans hscope
    have hmid := test.heightAt_behind hprefix htest hjumpz hbase
    have hsecond := balanced yes hscope hyes hmid hexit (by omega : yes.largest < bound)
    have hfirst := test.balanced_test hprefix htest hjumpz hbase (by omega : test.nodes < bound)
      hexit hsecond.height
    apply hfirst.trans hsecond
  | .ifThenElse test yes no _, _, _, _, hscope, hplace, hbase, hexit, hbound => by
    rw [scopeAfter] at hscope
    rw [largest] at hbound
    have hyesScope := (prefix_scopeAfter _ no).trans hscope
    apply balanced_ifThenElse hyesScope hplace hbase hexit (by omega)
    · intro top last hlast hyes htop
      apply balanced yes hyesScope hyes htop hlast (by omega)
    · intro top hno htop
      apply balanced no hscope hno htop hexit (by omega)
  | .result none _, _, _, _, _, hplace, hbase, _, _ => by
    obtain rfl := hplace.exit
    apply balanced_plain hplace.getElem? trivial hbase (Nat.zero_le _) (Nat.zero_le _)
  | .result (some value) _, _, _, _, hscope, hplace, hbase, _, hbound => by
    rw [lower] at hplace
    rw [scopeAfter] at hscope
    rw [largest] at hbound
    obtain ⟨mid, hvalue, hhalt⟩ := places_append.mp hplace
    obtain rfl := hhalt.exit
    have hfirst := value.balanced hscope hvalue hbase (by omega : 0 + value.nodes ≤ bound)
    apply hfirst.trans
    apply balanced_plain hhalt.getElem? trivial hfirst.height (Nat.zero_le _) (by omega)
  | .declare name value _, scope, _, _, hscope, hplace, hbase, _, hbound => by
    obtain ⟨mid, slot, hvalue, hslot, hwrite, rfl⟩ := hplace.declare
    rw [scopeAfter] at hscope
    rw [largest] at hbound
    have hlt := Nat.lt_of_lt_of_le (Scope.lt_of_slot? hslot) hscope.length_le
    have hprefix := (scope.prefix_declare name).trans hscope
    apply value.balanced_write hprefix hvalue hwrite hlt hbase hbound
  | .function .., _, _, _, _, hplace, _, _, _ => by
    rw [lower] at hplace
    cases not_places_ofProblem hplace
  | .assign target value _, _, _, _, hscope, hplace, hbase, _, hbound => by
    obtain ⟨name, rfl⟩ := hplace.exists_name
    obtain ⟨mid, slot, hvalue, hslot, hwrite, rfl⟩ := hplace.assign
    rw [scopeAfter] at hscope
    rw [largest] at hbound
    have hlt := Nat.lt_of_lt_of_le (Scope.lt_of_slot? hslot) hscope.length_le
    apply value.balanced_write hscope hvalue hwrite hlt hbase (by omega)
  | .forLoop start test update body _, _, _, _, hscope, hplace, hbase, hexit, hbound => by
    obtain ⟨top, mid, last, hstart, h⟩ := hplace.forLoop
    rw [scopeAfter] at hscope
    rw [largest] at hbound
    have hbodyScope := (prefix_scopeAfter _ update).trans hscope
    have hstartScope := (prefix_scopeAfter _ body).trans hbodyScope
    obtain ⟨middle, hbody, hupdate⟩ := h.body.cons
    rw [lowerAll_singleton] at hupdate
    have htop := h.test.le
    have hmiddle := hbody.le
    have hend := hupdate.le
    have hlast := h.exit
    have hfirst := balanced start hstartScope hstart hbase (by omega)
      (by omega : start.largest < bound)
    apply hfirst.trans
    apply h.balanced hstartScope hfirst.height hexit (by omega)
    intro hmid
    have hsecond := balanced body hbodyScope hbody hmid (by omega) (by omega : body.largest < bound)
    apply hsecond.trans
    apply balanced update hscope hupdate hsecond.height (by omega) (by omega)

/-- The code of statements begins and ends with an empty stack. -/
theorem Stmt.balancedAll :
    ∀ (l : List Stmt) {scope : Scope} {base exit : Nat},
      Stmt.scopeAfterAll scope l <+: S.scope →
      S.Places base (Stmt.lowerAll scope base l) exit → heightAt S.code base = 0 →
      exit < S.code.size → Stmt.largestAll l < bound → S.Balanced bound base exit 0
  | [], _, _, _, _, hplace, hbase, _, _ => by
    obtain rfl := hplace.nil
    exact ⟨hbase, fun n i h h' => absurd h' (Nat.not_lt.mpr h)⟩
  | s :: rest, _, _, _, hscope, hplace, hbase, hexit, hbound => by
    obtain ⟨mid, hs, hrest⟩ := hplace.cons
    rw [scopeAfterAll] at hscope
    rw [largestAll] at hbound
    have hprefix := (prefix_scopeAfterAll _ rest).trans hscope
    have hle := hrest.le
    have hfirst := balanced s hprefix hs hbase (by omega) (by omega : s.largest < bound)
    apply hfirst.trans
    apply balancedAll rest hscope hrest hfirst.height hexit (by omega)

end

/-! ### Programs -/

/-- Lowered code is disciplined: it has a slot for each declared name, and its heights are at
most one more than the nodes of the largest expression. -/
theorem disciplined_of_lower {statements : List Stmt} {code : Code}
    (hlower : lower statements = .ok code) :
  Disciplined code.toArray (Stmt.declaredAll statements).dedup.length
    (Stmt.largestAll statements + 1)
  := by
  -- only the code and the scope of a site matter here
  let S := site statements code ⟨none, (Stmt.declaredAll statements).dedup.length, 0⟩ rfl
    (Nat.le_refl _)
  obtain ⟨exit, hplace, hhalt⟩ : ∃ exit, S.Places 0 (Stmt.lowerAll [] 0 statements) exit
      ∧ S.code[exit]? = some .halt := places_site hlower rfl (Nat.le_refl _)
  have hsize : code.toArray.size = exit + 1 := by
    obtain ⟨-, hcode⟩ := lower_eq_ok hlower
    have hexit := hplace.exit
    rw [hcode, List.size_toArray, List.length_append, List.length_singleton]
    omega
  have hlt : exit < S.code.size := Nat.lt_of_lt_of_eq (Nat.lt_succ_self exit) hsize.symm
  have hbalanced := Stmt.balancedAll statements (List.prefix_refl _) hplace rfl hlt
    (Nat.lt_succ_self _)
  have hlast := balanced_plain hhalt trivial hbalanced.height (Nat.le_refl 0)
    (Nat.zero_le (Stmt.largestAll statements + 1))
  have hall := hbalanced.trans hlast
  constructor
  · omega
  · intro n i hi
    have hn := (Array.getElem?_eq_some_iff.mp hi).1
    rw [← Stmt.length_scopeAfterAll]
    apply hall.instruction n i (Nat.zero_le n) (by omega) hi
  · intro n i hi hne
    have hn := (Array.getElem?_eq_some_iff.mp hi).1
    have hexit : n ≠ exit := by
      rintro rfl
      apply hne (Option.some.inj (hi.symm.trans hhalt))
    omega

end Source

end StackMachine
