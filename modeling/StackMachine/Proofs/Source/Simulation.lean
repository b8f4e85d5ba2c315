import StackMachine.Proofs.Source.Placement

/-!
# Simulation of the source

What the meaning of an expression or a statement says, the machine does where the piece of
the expression or the statement is placed.  The proof is by induction on the evaluation and
on the execution.
-/

namespace StackMachine

namespace Source

namespace Site

/-! ### What the machine does -/

/-- From a place with a stack the machine comes to another place with the value of an
expression on the stack, or faults as the expression does. -/
def Pushes (S : Site) (env : Env) (base : Nat) (stack : List Int) (exit : Nat) :
    Except Fault Int → Prop
  | .ok w => S.Leads ⟨env, base, stack⟩ ⟨env, exit, w :: stack⟩
  | .error fault => S.Faults ⟨env, base, stack⟩ fault

/-- From a point the machine comes to a place with the new values of the variables, halts
with what is returned on the stack, or faults, as statements do. -/
def Yields (S : Site) (p : Point) (exit : Nat) : Result → Prop
  | .normal env => S.Leads p ⟨env, exit, []⟩
  | .returned value => S.Halts p value.toList
  | .faulted fault => S.Faults p fault

variable {S : Site} {p q : Point} {exit : Nat} {r : Result}

/-- A point yields what the point to which it leads yields. -/
theorem Leads.yields (h : S.Leads p q) (h' : S.Yields q exit r) :
  S.Yields p exit r
  := by
  cases r with
  | normal env => apply h.trans h'
  | returned value => apply h.halts h'
  | faulted fault => apply h.faults h'

/-- Where statements would have ended does not matter if they end the run. -/
theorem Yields.of_isAbrupt {exit' : Nat} (h : S.Yields p exit r) (hr : r.IsAbrupt) :
  S.Yields p exit' r
  := by
  cases r with
  | normal env => cases hr
  | returned value => apply h
  | faulted fault => apply h

/-- Statements that end where a jump leads on end where it leads to. -/
theorem Yields.jump {mid : Nat} (h : S.Yields p mid r)
    (hjump : S.code[mid]? = some (.jump exit)) :
  S.Yields p exit r
  := by
  cases r with
  | normal env => apply Leads.trans h (steps_jump hjump).leads
  | returned value => apply h
  | faulted fault => apply h

end Site

open Site

variable {S : Site}

/-! ### Expressions -/

/-- The code of an expression pushes its value. -/
theorem Expr.pushes {env : Env} {e : Expr} {r : Except Fault Int} (h : e.Evaluates env r)
    {scope : Scope} (hscope : scope <+: S.scope) {base exit : Nat}
    (hplace : S.Places base (e.lower scope) exit) (stack : List Int) :
  S.Pushes env base stack exit r
  := by
  induction h generalizing base exit stack with
  | name n =>
    obtain ⟨slot, hslot, hcode, rfl⟩ := hplace.name
    apply leads_readSlot hcode (Scope.slot?_of_prefix hscope hslot)
  | int value span =>
    obtain ⟨hcode, rfl⟩ := hplace.int
    apply (steps_loadc hcode).leads
  | bool value span =>
    obtain rfl := hplace.exit
    apply (steps_loadc hplace.code.1).leads
  | @binary op left right span a b r hleft hright hr ihleft ihright =>
    obtain ⟨mid, last, hl, hrest, hop, rfl⟩ := hplace.binary
    have hmid := ihleft hl stack
    have hlast := ihright hrest (a :: stack)
    cases r with
    | ok w =>
      apply hmid.trans
      apply hlast.trans
      apply (steps_binary hop hr).leads
    | error fault =>
      apply hmid.faults
      apply hlast.faults
      apply faults_binary hop hr
  | binaryLeft hleft ih =>
    obtain ⟨mid, last, hl, -, -, -⟩ := hplace.binary
    apply ih hl
  | @binaryRight op left right span a fault hleft hright ihleft ihright =>
    obtain ⟨mid, last, hl, hrest, -, -⟩ := hplace.binary
    have hmid := ihleft hl stack
    apply hmid.faults
    apply ihright hrest
  | @unary op operand span a r hoperand hr ih =>
    obtain ⟨last, ho, hop, rfl⟩ := hplace.unary
    have hlast := ih ho stack
    cases r with
    | ok w =>
      apply hlast.trans
      apply (steps_unary hop hr).leads
    | error fault =>
      apply hlast.faults
      apply faults_unary hop hr
  | unaryOperand hoperand ih =>
    obtain ⟨last, ho, -, -⟩ := hplace.unary
    apply ih ho

/-- The code of an expression leads to its value on the stack. -/
theorem Expr.leads {env : Env} {e : Expr} {w : Int} (h : e.Evaluates env (.ok w))
    {scope : Scope} (hscope : scope <+: S.scope) {base exit : Nat}
    (hplace : S.Places base (e.lower scope) exit) (stack : List Int) :
  S.Leads ⟨env, base, stack⟩ ⟨env, exit, w :: stack⟩
  := Expr.pushes h hscope hplace stack

/-- The code of an expression faults as the expression does. -/
theorem Expr.faults {env : Env} {e : Expr} {fault : Fault} (h : e.Evaluates env (.error fault))
    {scope : Scope} (hscope : scope <+: S.scope) {base exit : Nat}
    (hplace : S.Places base (e.lower scope) exit) (stack : List Int) :
  S.Faults ⟨env, base, stack⟩ fault
  := Expr.pushes h hscope hplace stack

/-! ### Statements -/

/-- A test that is 0 leads to the end of a loop. -/
theorem Site.Loops.leads_exit {scope : Scope} {test : Expr} {body : List Stmt}
    {base mid last exit : Nat} (h : S.Loops scope test body base mid last exit)
    (hscope : scope <+: S.scope) {env : Env} (htest : test.Evaluates env (.ok 0)) :
  S.Leads ⟨env, base, []⟩ ⟨env, exit, []⟩
  := by
  apply (Expr.leads htest hscope h.test []).trans
  apply (steps_jumpz_taken h.jumpz).leads

/-- A test that is not 0 leads to the body of a loop. -/
theorem Site.Loops.leads_body {scope : Scope} {test : Expr} {body : List Stmt}
    {base mid last exit : Nat} (h : S.Loops scope test body base mid last exit)
    (hscope : scope <+: S.scope) {env : Env} {w : Int} (htest : test.Evaluates env (.ok w))
    (hw : w ≠ 0) :
  S.Leads ⟨env, base, []⟩ ⟨env, mid + 1, []⟩
  := by
  apply (Expr.leads htest hscope h.test []).trans
  apply (steps_jumpz_passed h.jumpz hw).leads

mutual

/-- The code of a statement yields its result. -/
theorem Stmt.yields :
    ∀ {s : Stmt} {env : Env} {r : Result}, s.Executes env r →
      ∀ {scope : Scope} {base exit : Nat}, s.scopeAfter scope <+: S.scope →
        S.Places base (s.lower scope base) exit → S.Yields ⟨env, base, []⟩ exit r
  | _, _, _, .block hbody, _, _, _, hscope, hplace => by
    rw [Stmt.scopeAfter] at hscope
    rw [Stmt.lower] at hplace
    apply Stmt.yieldsAll hbody hscope hplace
  | _, _, _, .whileLoop hloop, _, _, _, hscope, hplace => by
    obtain ⟨mid, last, h⟩ := hplace.whileLoop
    rw [Stmt.scopeAfter] at hscope
    apply Stmt.yieldsRepeats hloop _ h
    rw [Stmt.scopeAfterAll, Stmt.scopeAfterAll]
    apply hscope
  | _, _, _, .ifThenFault htest, _, _, _, hscope, hplace => by
    obtain ⟨mid, htest', -, -⟩ := hplace.ifThen
    apply Expr.faults htest ((Stmt.prefix_scopeAfter _ _).trans hscope) htest'
  | _, _, _, .ifThenTaken htest hw hyes, _, _, _, hscope, hplace => by
    obtain ⟨mid, htest', hjumpz, hyes'⟩ := hplace.ifThen
    rw [Stmt.scopeAfter] at hscope
    apply (Expr.leads htest ((Stmt.prefix_scopeAfter _ _).trans hscope) htest' []).yields
    apply (steps_jumpz_passed hjumpz hw).leads.yields
    apply Stmt.yields hyes hscope hyes'
  | _, _, _, .ifThenPassed htest, _, _, _, hscope, hplace => by
    obtain ⟨mid, htest', hjumpz, -⟩ := hplace.ifThen
    apply (Expr.leads htest ((Stmt.prefix_scopeAfter _ _).trans hscope) htest' []).trans
    apply (steps_jumpz_taken hjumpz).leads
  | _, _, _, .ifThenElseFault htest, _, _, _, hscope, hplace => by
    obtain ⟨mid, last, htest', -⟩ := hplace.ifThenElse
    apply Expr.faults htest ((Stmt.prefix_scopeAfter _ _).trans hscope) htest'
  | _, _, _, .ifThenElseTaken htest hw hyes, _, _, _, hscope, hplace => by
    obtain ⟨mid, last, htest', hjumpz, hyes', hjump, -⟩ := hplace.ifThenElse
    have hprefix := (Stmt.prefix_scopeAfter _ _).trans hscope
    rw [Stmt.scopeAfter] at hscope
    apply (Expr.leads htest hprefix htest' []).yields
    apply (steps_jumpz_passed hjumpz hw).leads.yields
    have h := Stmt.yields hyes ((Stmt.prefix_scopeAfter _ _).trans hscope) hyes'
    apply h.jump hjump
  | _, _, _, .ifThenElsePassed htest hno, _, _, _, hscope, hplace => by
    obtain ⟨mid, last, htest', hjumpz, -, -, hno'⟩ := hplace.ifThenElse
    have hprefix := (Stmt.prefix_scopeAfter _ _).trans hscope
    rw [Stmt.scopeAfter] at hscope
    apply (Expr.leads htest hprefix htest' []).yields
    apply (steps_jumpz_taken hjumpz).leads.yields
    apply Stmt.yields hno hscope hno'
  | _, _, _, .resultNone, _, _, _, _, hplace => by
    rw [Stmt.lower] at hplace
    apply halts_halt hplace.getElem?
  | _, _, _, .resultFault hvalue, _, _, _, hscope, hplace => by
    obtain ⟨mid, hvalue', -⟩ := hplace.resultSome
    apply Expr.faults hvalue ((Stmt.prefix_scopeAfter _ _).trans hscope) hvalue'
  | _, _, _, .resultSome hvalue, _, _, _, hscope, hplace => by
    obtain ⟨mid, hvalue', hhalt⟩ := hplace.resultSome
    apply (Expr.leads hvalue ((Stmt.prefix_scopeAfter _ _).trans hscope) hvalue' []).halts
    apply halts_halt hhalt
  | _, _, _, .declareFault hvalue, _, _, _, hscope, hplace => by
    obtain ⟨mid, slot, hvalue', -⟩ := hplace.declare
    apply Expr.faults hvalue ((Stmt.prefix_scopeAfter _ _).trans hscope) hvalue'
  | _, _, _, .declare hvalue, _, _, _, hscope, hplace => by
    obtain ⟨mid, slot, hvalue', hslot, hwrite, rfl⟩ := hplace.declare
    apply (Expr.leads hvalue ((Stmt.prefix_scopeAfter _ _).trans hscope) hvalue' []).trans
    rw [Stmt.scopeAfter] at hscope
    apply leads_writeSlot hwrite (Scope.slot?_of_prefix hscope hslot)
  | _, _, _, .assignFault hvalue, _, _, _, hscope, hplace => by
    obtain ⟨mid, slot, hvalue', -⟩ := hplace.assign
    apply Expr.faults hvalue ((Stmt.prefix_scopeAfter _ _).trans hscope) hvalue'
  | _, _, _, .assign hvalue, _, _, _, hscope, hplace => by
    obtain ⟨mid, slot, hvalue', hslot, hwrite, rfl⟩ := hplace.assign
    have hprefix := (Stmt.prefix_scopeAfter _ _).trans hscope
    apply (Expr.leads hvalue hprefix hvalue' []).trans
    apply leads_writeSlot hwrite (Scope.slot?_of_prefix hprefix hslot)
  | _, _, _, .forLoopStop hstart hr, _, _, _, hscope, hplace => by
    obtain ⟨top, mid, last, hstart', -⟩ := hplace.forLoop
    rw [Stmt.scopeAfter] at hscope
    have hprefix := (Stmt.prefix_scopeAfter _ _).trans
      ((Stmt.prefix_scopeAfter _ _).trans hscope)
    apply (Stmt.yields hstart hprefix hstart').of_isAbrupt hr
  | _, _, _, .forLoop hstart hloop, _, _, _, hscope, hplace => by
    obtain ⟨top, mid, last, hstart', hloop'⟩ := hplace.forLoop
    rw [Stmt.scopeAfter] at hscope
    have hprefix := (Stmt.prefix_scopeAfter _ _).trans
      ((Stmt.prefix_scopeAfter _ _).trans hscope)
    have h := Stmt.yields hstart hprefix hstart'
    apply Leads.yields h
    apply Stmt.yieldsRepeats hloop _ hloop'
    rw [Stmt.scopeAfterAll, Stmt.scopeAfterAll, Stmt.scopeAfterAll]
    apply hscope

/-- The code of statements yields their result. -/
theorem Stmt.yieldsAll :
    ∀ {l : List Stmt} {env : Env} {r : Result}, Stmt.ExecutesAll l env r →
      ∀ {scope : Scope} {base exit : Nat}, Stmt.scopeAfterAll scope l <+: S.scope →
        S.Places base (Stmt.lowerAll scope base l) exit → S.Yields ⟨env, base, []⟩ exit r
  | _, _, _, .nil, _, _, _, _, hplace => by
    obtain rfl := hplace.nil
    apply Leads.refl
  | _, _, _, .stop hs hr, _, _, _, hscope, hplace => by
    obtain ⟨mid, hs', -⟩ := hplace.cons
    rw [Stmt.scopeAfterAll] at hscope
    have hprefix := (Stmt.prefix_scopeAfterAll _ _).trans hscope
    apply (Stmt.yields hs hprefix hs').of_isAbrupt hr
  | _, _, _, .cons hs hrest, _, _, _, hscope, hplace => by
    obtain ⟨mid, hs', hrest'⟩ := hplace.cons
    rw [Stmt.scopeAfterAll] at hscope
    have h := Stmt.yields hs ((Stmt.prefix_scopeAfterAll _ _).trans hscope) hs'
    apply Leads.yields h
    apply Stmt.yieldsAll hrest hscope hrest'

/-- The code of a loop yields the result of executing its body again and again. -/
theorem Stmt.yieldsRepeats :
    ∀ {test : Expr} {body : List Stmt} {env : Env} {r : Result},
      Stmt.Repeats test body env r →
      ∀ {scope : Scope} {base mid last exit : Nat},
        Stmt.scopeAfterAll scope body <+: S.scope →
        S.Loops scope test body base mid last exit → S.Yields ⟨env, base, []⟩ exit r
  | _, _, _, _, .fault htest, _, _, _, _, _, hscope, h => by
    apply Expr.faults htest ((Stmt.prefix_scopeAfterAll _ _).trans hscope) h.test
  | _, _, _, _, .done htest, _, _, _, _, _, hscope, h => by
    apply h.leads_exit ((Stmt.prefix_scopeAfterAll _ _).trans hscope) htest
  | _, _, _, _, .stop htest hw hbody hr, _, _, _, _, _, hscope, h => by
    have hprefix := (Stmt.prefix_scopeAfterAll _ _).trans hscope
    apply (h.leads_body hprefix htest hw).yields
    apply (Stmt.yieldsAll hbody hscope h.body).of_isAbrupt hr
  | _, _, _, _, .again htest hw hbody hrest, _, _, _, _, _, hscope, h => by
    have hprefix := (Stmt.prefix_scopeAfterAll _ _).trans hscope
    apply (h.leads_body hprefix htest hw).yields
    have hlast := Stmt.yieldsAll hbody hscope h.body
    apply Leads.yields hlast
    apply (steps_jump h.jump).leads.yields
    apply Stmt.yieldsRepeats hrest hscope h

end

end Source

end StackMachine
