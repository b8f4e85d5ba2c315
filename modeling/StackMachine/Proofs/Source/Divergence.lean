import StackMachine.Proofs.Source.Simulation

/-!
# Execution for ever

Statements without a result are executed for ever, and so is their code.  For every number
of cycles either the statements have a result or the machine goes on for so many cycles, by
induction on the statements, and for loops by induction on the number of cycles.
-/

namespace StackMachine

namespace Source

open Site

variable {S : Site}

/-! ### Expressions -/

/-- An expression that is lowered without problems has a value or faults. -/
theorem Expr.exists_evaluates (env : Env) {scope : Scope} :
    ∀ (e : Expr) {base exit : Nat}, S.Places base (e.lower scope) exit →
      ∃ r, e.Evaluates env r
  | .name n, _, _, _ => ⟨_, .name n⟩
  | .int value span, _, _, _ => ⟨_, .int value span⟩
  | .bool value span, _, _, _ => ⟨_, .bool value span⟩
  | .binary op left right _, base, exit, hplace => by
    obtain ⟨mid, last, hleft, hright, -, -⟩ := hplace.binary
    obtain ⟨r, hr⟩ := exists_evaluates env left hleft
    cases r with
    | error fault => exact ⟨_, .binaryLeft hr⟩
    | ok a =>
      obtain ⟨r', hr'⟩ := exists_evaluates env right hright
      cases r' with
      | error fault => exact ⟨_, .binaryRight hr hr'⟩
      | ok b => exact ⟨_, .binary hr hr' rfl⟩
  | .unary op operand _, base, exit, hplace => by
    obtain ⟨last, hoperand, -, -⟩ := hplace.unary
    obtain ⟨r, hr⟩ := exists_evaluates env operand hoperand
    cases r with
    | error fault => exact ⟨_, .unaryOperand hr⟩
    | ok a => exact ⟨_, .unary hr rfl⟩
  | .call .., _, _, hplace => by
    rw [lower] at hplace
    cases not_places_ofProblem hplace

/-! ### Statements -/

/-- There is a result, or the run from a point goes on for a number of cycles. -/
def Site.Decides (S : Site) (p : Point) (n : Nat) (results : Result → Prop) : Prop :=
  (∃ r, results r) ∨ S.GoesOn p n

namespace Site

/-- What is decided by results of one kind is decided by results that they give. -/
theorem Decides.imp {p : Point} {n : Nat} {results results' : Result → Prop}
    (h : S.Decides p n results) (himp : ∀ r, results r → results' r) :
  S.Decides p n results'
  := by
  rcases h with ⟨r, hr⟩ | h
  · left
    exact ⟨r, himp r hr⟩
  · right
    apply h

/-- A point decides what the point to which it leads decides. -/
theorem Leads.decides {p q : Point} {n : Nat} {results : Result → Prop} (h : S.Leads p q)
    (h' : S.Decides q n results) :
  S.Decides p n results
  := by
  rcases h' with hr | h'
  · left
    apply hr
  · right
    apply h.goesOn h'

variable {env : Env} {n : Nat}

/-- What begins with an expression is decided if a fault of the expression gives a result and
if it is decided for each value of the expression. -/
theorem decides_value {value : Expr} {scope : Scope} {base mid : Nat} {p : Point}
    {results : Result → Prop} (hplace : S.Places base (value.lower scope) mid)
    (hfault : ∀ fault, value.Evaluates env (.error fault) → ∃ r, results r)
    (hvalue : ∀ w, value.Evaluates env (.ok w) → S.Decides p n results) :
  S.Decides p n results
  := by
  obtain ⟨r, hr⟩ := value.exists_evaluates env hplace
  cases r with
  | error fault =>
    left
    apply hfault fault hr
  | ok w => apply hvalue w hr

/-- What begins with a statement is decided if it is decided where the statement ends
normally and if a result of the statement that ends the run gives a result. -/
theorem Decides.andThen {s : Stmt} {scope : Scope} {base mid : Nat} {results : Result → Prop}
    (hscope : s.scopeAfter scope <+: S.scope) (hplace : S.Places base (s.lower scope base) mid)
    (hs : S.Decides ⟨env, base, []⟩ n (s.Executes env))
    (habrupt : ∀ r, s.Executes env r → r.IsAbrupt → ∃ r', results r')
    (hnormal : ∀ env', s.Executes env (.normal env') →
      S.Decides ⟨env', mid, []⟩ n results) :
  S.Decides ⟨env, base, []⟩ n results
  := by
  rcases hs with ⟨r, hr⟩ | hgoes
  · cases r with
    | normal env' =>
      have hmid : S.Leads _ _ := Stmt.yields hr hscope hplace
      apply hmid.decides
      apply hnormal env' hr
    | returned value =>
      left
      apply habrupt _ hr trivial
    | faulted fault =>
      left
      apply habrupt _ hr trivial
  · right
    apply hgoes

/-- Statements after a statement are decided where the statement ends normally. -/
theorem Decides.cons {s : Stmt} {rest : List Stmt} {scope : Scope} {base mid : Nat}
    (hscope : s.scopeAfter scope <+: S.scope) (hplace : S.Places base (s.lower scope base) mid)
    (hs : S.Decides ⟨env, base, []⟩ n (s.Executes env))
    (hrest : ∀ env', S.Decides ⟨env', mid, []⟩ n (Stmt.ExecutesAll rest env')) :
  S.Decides ⟨env, base, []⟩ n (Stmt.ExecutesAll (s :: rest) env)
  := by
  apply hs.andThen hscope hplace
  · intro r hr habrupt
    exact ⟨r, .stop hr habrupt⟩
  · intro env' hr
    apply (hrest env').imp
    intro r hr'
    apply Stmt.ExecutesAll.cons hr hr'

theorem decides_nil (p : Point) :
  S.Decides p n (Stmt.ExecutesAll [] env)
  := by
  left
  exact ⟨_, .nil⟩

/-- A test and a body executed again and again are decided if the body is. -/
theorem Loops.decides {scope : Scope} {test : Expr} {body : List Stmt}
    {base mid last exit : Nat} (h : S.Loops scope test body base mid last exit)
    (hscope : Stmt.scopeAfterAll scope body <+: S.scope)
    (hbody : ∀ n env, S.Decides ⟨env, mid + 1, []⟩ n (Stmt.ExecutesAll body env)) (n : Nat) :
  ∀ env, S.Decides ⟨env, base, []⟩ n (Stmt.Repeats test body env)
  := by
  have hprefix := (Stmt.prefix_scopeAfterAll _ _).trans hscope
  induction n with
  | zero =>
    intro env
    right
    apply goesOn_zero
  | succ n ih =>
    intro env
    apply decides_value h.test
    · intro fault htest
      exact ⟨_, .fault htest⟩
    intro w htest
    by_cases hw : w = 0
    · subst hw
      left
      exact ⟨_, .done htest⟩
    · rcases hbody (n + 1) env with ⟨r, hr⟩ | hgoes
      · cases r with
        | normal env' =>
          -- the jump back to the test is the cycle that the induction is on
          have hlast : S.Leads _ _ := Stmt.yieldsAll hr hscope h.body
          rcases ih env' with ⟨r, hr'⟩ | hgoes
          · left
            exact ⟨r, .again htest hw hr hr'⟩
          · right
            apply (h.leads_body hprefix htest hw).goesOn
            apply hlast.goesOn
            apply (steps_jump h.jump).goesOn hgoes
        | returned value =>
          left
          exact ⟨_, .stop htest hw hr trivial⟩
        | faulted fault =>
          left
          exact ⟨_, .stop htest hw hr trivial⟩
      · right
        apply (h.leads_body hprefix htest hw).goesOn hgoes

/-- A branch is decided if its body is. -/
theorem decides_ifThen {test : Expr} {yes : Stmt} {span : Option Span} {scope : Scope}
    {base exit : Nat} (hscope : yes.scopeAfter scope <+: S.scope)
    (hplace : S.Places base ((Stmt.ifThen test yes span).lower scope base) exit)
    (hyes : ∀ top, S.Places top (yes.lower scope top) exit →
      S.Decides ⟨env, top, []⟩ n (yes.Executes env)) :
  S.Decides ⟨env, base, []⟩ n ((Stmt.ifThen test yes span).Executes env)
  := by
  obtain ⟨mid, htest, hjumpz, hyes'⟩ := hplace.ifThen
  apply decides_value htest
  · intro fault hr
    exact ⟨_, .ifThenFault hr⟩
  intro w hr
  by_cases hw : w = 0
  · subst hw
    left
    exact ⟨_, .ifThenPassed hr⟩
  · apply (Expr.leads hr ((Stmt.prefix_scopeAfter _ _).trans hscope) htest []).decides
    apply (steps_jumpz_passed hjumpz hw).leads.decides
    apply (hyes _ hyes').imp
    intro r hr'
    apply Stmt.Executes.ifThenTaken hr hw hr'

/-- A branch with two bodies is decided if both are. -/
theorem decides_ifThenElse {test : Expr} {yes no : Stmt} {span : Option Span} {scope : Scope}
    {base exit : Nat} (hscope : yes.scopeAfter scope <+: S.scope)
    (hplace : S.Places base ((Stmt.ifThenElse test yes no span).lower scope base) exit)
    (hyes : ∀ top last, S.Places top (yes.lower scope top) last →
      S.Decides ⟨env, top, []⟩ n (yes.Executes env))
    (hno : ∀ top, S.Places top (no.lower (yes.scopeAfter scope) top) exit →
      S.Decides ⟨env, top, []⟩ n (no.Executes env)) :
  S.Decides ⟨env, base, []⟩ n ((Stmt.ifThenElse test yes no span).Executes env)
  := by
  obtain ⟨mid, last, htest, hjumpz, hyes', -, hno'⟩ := hplace.ifThenElse
  apply decides_value htest
  · intro fault hr
    exact ⟨_, .ifThenElseFault hr⟩
  intro w hr
  apply (Expr.leads hr ((Stmt.prefix_scopeAfter _ _).trans hscope) htest []).decides
  by_cases hw : w = 0
  · subst hw
    apply (steps_jumpz_taken hjumpz).leads.decides
    apply (hno _ hno').imp
    intro r hr'
    apply Stmt.Executes.ifThenElsePassed hr hr'
  · apply (steps_jumpz_passed hjumpz hw).leads.decides
    apply (hyes _ _ hyes').imp
    intro r hr'
    apply Stmt.Executes.ifThenElseTaken hr hw hr'

end Site

mutual

/-- A statement has a result, or its code goes on for any number of cycles. -/
theorem Stmt.decides :
    ∀ (s : Stmt) {scope : Scope} {base exit : Nat}, s.scopeAfter scope <+: S.scope →
      S.Places base (s.lower scope base) exit → ∀ (n : Nat) (env : Env),
        S.Decides ⟨env, base, []⟩ n (s.Executes env)
  | .block body _, _, _, _, hscope, hplace, n, env => by
    rw [scopeAfter] at hscope
    rw [lower] at hplace
    apply (decidesAll body hscope hplace n env).imp
    intro r hr
    apply Executes.block hr
  | .whileLoop test body _, _, _, _, hscope, hplace, n, env => by
    obtain ⟨mid, last, h⟩ := hplace.whileLoop
    rw [scopeAfter] at hscope
    have hplace' := h.body
    rw [lowerAll_singleton] at hplace'
    have hbody : ∀ n env, S.Decides ⟨env, mid + 1, []⟩ n (ExecutesAll [body] env) := by
      intro n env
      apply Decides.cons hscope hplace' (decides body hscope hplace' n env)
      intro env'
      apply decides_nil
    apply (h.decides (by rwa [scopeAfterAll, scopeAfterAll]) hbody n env).imp
    intro r hr
    apply Executes.whileLoop hr
  | .ifThen test yes _, _, _, _, hscope, hplace, n, env => by
    rw [scopeAfter] at hscope
    apply decides_ifThen hscope hplace
    intro top hyes
    apply decides yes hscope hyes n env
  | .ifThenElse test yes no _, _, _, _, hscope, hplace, n, env => by
    rw [scopeAfter] at hscope
    have hprefix := (prefix_scopeAfter _ _).trans hscope
    apply decides_ifThenElse hprefix hplace
    · intro top last hyes
      apply decides yes hprefix hyes n env
    · intro top hno
      apply decides no hscope hno n env
  | .result none _, _, _, _, _, _, _, _ => .inl ⟨_, .resultNone⟩
  | .result (some value) _, _, _, _, _, hplace, n, env => by
    obtain ⟨mid, hvalue, -⟩ := hplace.resultSome
    apply decides_value hvalue
    · intro fault hr
      exact ⟨_, .resultFault hr⟩
    · intro w hr
      left
      exact ⟨_, .resultSome hr⟩
  | .declare name value _, _, _, _, _, hplace, n, env => by
    obtain ⟨mid, slot, hvalue, -⟩ := hplace.declare
    apply decides_value hvalue
    · intro fault hr
      exact ⟨_, .declareFault hr⟩
    · intro w hr
      left
      exact ⟨_, .declare hr⟩
  | .function .., _, _, _, _, hplace, _, _ => by
    rw [lower] at hplace
    cases not_places_ofProblem hplace
  | .assign target value _, _, _, _, _, hplace, n, env => by
    obtain ⟨name, rfl⟩ := hplace.exists_name
    obtain ⟨mid, slot, hvalue, -⟩ := hplace.assign
    apply decides_value hvalue
    · intro fault hr
      exact ⟨_, .assignFault hr⟩
    · intro w hr
      left
      exact ⟨_, .assign hr⟩
  | .forLoop start test update body _, _, _, _, hscope, hplace, n, env => by
    obtain ⟨top, mid, last, hstart, h⟩ := hplace.forLoop
    rw [scopeAfter] at hscope
    have hbodyScope := (prefix_scopeAfter _ update).trans hscope
    have hstartScope := (prefix_scopeAfter _ body).trans hbodyScope
    obtain ⟨middle, hplaceBody, hplace'⟩ := h.body.cons
    rw [lowerAll_singleton] at hplace'
    have hbody : ∀ n env, S.Decides ⟨env, mid + 1, []⟩ n (ExecutesAll [body, update] env) := by
      intro n env
      apply Decides.cons hbodyScope hplaceBody (decides body hbodyScope hplaceBody n env)
      intro env'
      apply Decides.cons hscope hplace' (decides update hscope hplace' n env')
      intro env''
      apply decides_nil
    apply (decides start hstartScope hstart n env).andThen hstartScope hstart
    · intro r hr habrupt
      exact ⟨r, .forLoopStop hr habrupt⟩
    · intro env' hr
      apply (h.decides _ hbody n env').imp
      · intro r hr'
        apply Executes.forLoop hr hr'
      · rwa [scopeAfterAll, scopeAfterAll, scopeAfterAll]

/-- Statements have a result, or their code goes on for any number of cycles. -/
theorem Stmt.decidesAll :
    ∀ (l : List Stmt) {scope : Scope} {base exit : Nat},
      Stmt.scopeAfterAll scope l <+: S.scope →
      S.Places base (Stmt.lowerAll scope base l) exit → ∀ (n : Nat) (env : Env),
        S.Decides ⟨env, base, []⟩ n (Stmt.ExecutesAll l env)
  | [], _, _, _, _, _, _, _ => decides_nil _
  | s :: rest, _, _, _, hscope, hplace, n, env => by
    obtain ⟨mid, hs, hrest⟩ := hplace.cons
    rw [scopeAfterAll] at hscope
    have hprefix := (prefix_scopeAfterAll _ rest).trans hscope
    apply Decides.cons hprefix hs (decides s hprefix hs n env)
    intro env'
    apply decidesAll rest hscope hrest n env'

end

end Source

end StackMachine
