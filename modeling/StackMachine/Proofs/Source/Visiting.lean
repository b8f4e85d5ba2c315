import Mathlib.Data.List.Basic
import Mathlib.Data.List.Lex
import StackMachine.Source.Walk

/-!
# Visitors

A visitor acts at the nodes of the source, and goes on below a node by visiting the nodes just below
it.  A visitor that notes each node and then goes on, unless the kind of the node is to be skipped,
visits the nodes that are below no node of a skipped kind, each once: a node before those below it,
and these in the order in which they are written.  What it notes is the walk.
-/

namespace StackMachine

namespace Source

/-! ### Going on -/

/-- What is done at statements and at expressions. -/
structure Visitor (m : Type → Type) where
  stmt : Stmt → m Unit
  expr : Expr → m Unit

section

variable {m : Type → Type} [Monad m] (v : Visitor m)

/-- A visitor goes on below an expression. -/
def Expr.visitBelow : Expr → m Unit
  | .name _ => pure ()
  | .int .. => pure ()
  | .bool .. => pure ()
  | .binary _ left right _ => do
    v.expr left
    v.expr right
  | .unary _ operand _ => v.expr operand
  | .call _ arguments _ => arguments.forM v.expr

/-- A visitor goes on below a statement. -/
def Stmt.visitBelow : Stmt → m Unit
  | .block body _ => body.forM v.stmt
  | .whileLoop test body _ => do
    v.expr test
    v.stmt body
  | .ifThen test yes _ => do
    v.expr test
    v.stmt yes
  | .ifThenElse test yes no _ => do
    v.expr test
    v.stmt yes
    v.stmt no
  | .result none _ => pure ()
  | .result (some value) _ => v.expr value
  | .declare _ value _ => v.expr value
  | .function _ parameters body _ => do
    parameters.forM fun n => v.expr (.name n)
    v.stmt body
  | .assign target value _ => do
    v.expr target
    v.expr value
  | .forLoop start test update body _ => do
    v.stmt start
    v.expr test
    v.stmt update
    v.stmt body

/-- A visitor goes on below a node. -/
def Node.visitBelow : Node → m Unit
  | .expr e => e.visitBelow v
  | .stmt s => s.visitBelow v

/-- A visitor visits a node. -/
def Visitor.visit : Node → m Unit
  | .expr e => v.expr e
  | .stmt s => v.stmt s

end

/-- Visitors for all depths that note each node with the depth, and then go on a level deeper
unless the kind of the node is to be skipped. -/
def Visitor.Notes (skip : Kind → Bool) (v : Nat → Visitor (StateM (List Visit))) : Prop :=
  ∀ depth n, (v depth).visit n = do
    modify (· ++ [⟨depth, n⟩])
    if skip n.kind then pure () else n.visitBelow (v (depth + 1))

/-- What a visitor has noted after a node. -/
def Visitor.log (v : Visitor (StateM (List Visit))) (n : Node) : List Visit :=
  ((v.visit n).run []).2

/-! ### The nodes just below -/

/-- The nodes just below an expression, in the order in which they are written. -/
def Expr.children : Expr → List Node
  | .name _ => []
  | .int .. => []
  | .bool .. => []
  | .binary _ left right _ => [.expr left, .expr right]
  | .unary _ operand _ => [.expr operand]
  | .call _ arguments _ => arguments.map .expr

/-- The nodes just below a statement, in the order in which they are written.  The parameters of a
function are names, and in a counted loop the update stands before the body. -/
def Stmt.children : Stmt → List Node
  | .block body _ => body.map .stmt
  | .whileLoop test body _ => [.expr test, .stmt body]
  | .ifThen test yes _ => [.expr test, .stmt yes]
  | .ifThenElse test yes no _ => [.expr test, .stmt yes, .stmt no]
  | .result value _ => value.toList.map .expr
  | .declare _ value _ => [.expr value]
  | .function _ parameters body _ => parameters.map (fun n => .expr (.name n)) ++ [.stmt body]
  | .assign target value _ => [.expr target, .expr value]
  | .forLoop start test update body _ => [.stmt start, .expr test, .stmt update, .stmt body]

namespace Node

/-- The nodes just below a node. -/
def children : Node → List Node
  | expr e => e.children
  | stmt s => s.children

/-- To go on below a node is to visit the nodes just below it one after another. -/
theorem visitBelow_eq {m : Type → Type} [Monad m] [LawfulMonad m] (v : Visitor m) (n : Node) :
  n.visitBelow v = n.children.forM v.visit
  := by
  cases n with
  | expr e => cases e <;> simp [visitBelow, Expr.visitBelow, children, Expr.children, Visitor.visit]
  | stmt s =>
    cases s with
    | result value =>
      cases value <;> simp [visitBelow, Stmt.visitBelow, children, Stmt.children, Visitor.visit]
    | _ => simp [visitBelow, Stmt.visitBelow, children, Stmt.children, Visitor.visit]

/-- What is just below an expression is smaller. -/
theorem sizeOf_lt_of_mem_expr {e : Expr} {c : Node} (h : c ∈ e.children) :
  sizeOf c < sizeOf (expr e)
  := by
  cases e with
  | name | int | bool => cases h
  | binary =>
    rcases List.mem_pair.mp h with rfl | rfl
    all_goals
      simp only [expr.sizeOf_spec, Expr.binary.sizeOf_spec]
      omega
  | unary =>
    rw [List.mem_singleton.mp h]
    simp only [expr.sizeOf_spec, Expr.unary.sizeOf_spec]
    omega
  | call =>
    obtain ⟨a, ha, rfl⟩ := List.mem_map.mp h
    have := List.sizeOf_lt_of_mem ha
    simp only [expr.sizeOf_spec, Expr.call.sizeOf_spec]
    omega

/-- What is just below a statement is smaller. -/
theorem sizeOf_lt_of_mem_stmt {s : Stmt} {c : Node} (h : c ∈ s.children) :
  sizeOf c < sizeOf (stmt s)
  := by
  cases s with
  | block =>
    obtain ⟨t, ht, rfl⟩ := List.mem_map.mp h
    have := List.sizeOf_lt_of_mem ht
    simp only [stmt.sizeOf_spec, Stmt.block.sizeOf_spec]
    omega
  | function =>
    rcases List.mem_append.mp h with h | h
    · obtain ⟨n, hn, rfl⟩ := List.mem_map.mp h
      have := List.sizeOf_lt_of_mem hn
      simp only [stmt.sizeOf_spec, expr.sizeOf_spec, Stmt.function.sizeOf_spec,
        Expr.name.sizeOf_spec]
      omega
    · rw [List.mem_singleton.mp h]
      simp only [stmt.sizeOf_spec, Stmt.function.sizeOf_spec]
      omega
  | result value =>
    cases value with
    | none => cases h
    | some e =>
      rw [List.mem_singleton.mp h]
      simp only [stmt.sizeOf_spec, expr.sizeOf_spec, Stmt.result.sizeOf_spec,
        Option.some.sizeOf_spec]
      omega
  | _ =>
    simp only [Stmt.children, List.mem_cons, List.not_mem_nil, or_false] at h
    simp only [stmt.sizeOf_spec, Stmt.whileLoop.sizeOf_spec, Stmt.ifThen.sizeOf_spec,
      Stmt.ifThenElse.sizeOf_spec, Stmt.declare.sizeOf_spec, Stmt.assign.sizeOf_spec,
      Stmt.forLoop.sizeOf_spec]
    rcases h with rfl | rfl | rfl | rfl
    all_goals
      simp only [stmt.sizeOf_spec, expr.sizeOf_spec]
      omega

theorem sizeOf_lt_of_mem_children {n c : Node} (h : c ∈ n.children) :
  sizeOf c < sizeOf n
  := by
  cases n with
  | expr e => apply sizeOf_lt_of_mem_expr h
  | stmt s => apply sizeOf_lt_of_mem_stmt h

/-- What holds of a node whenever it holds of the nodes just below it holds of every node. -/
theorem induction_children {P : Node → Prop} (h : ∀ n, (∀ c ∈ n.children, P c) → P n) (n : Node) :
  P n
  := h n fun c hc => have := sizeOf_lt_of_mem_children hc; induction_children h c
termination_by sizeOf n

end Node

/-! ### Positions -/

/-- A place below a node: which of the nodes just below is taken at each level. -/
abbrev Position := List Nat

namespace Node

/-- The node at a position. -/
def at? : Node → Position → Option Node
  | n, [] => some n
  | n, i :: p => n.children[i]?.bind (·.at? p)

/-- All positions at which there are nodes: first that of the node itself, and then those below each
of the nodes just below. -/
def positions (n : Node) : List Position :=
  [] :: n.children.attach.zipIdx.flatMap fun c => c.1.val.positions.map (c.2 :: ·)
termination_by sizeOf n
decreasing_by exact sizeOf_lt_of_mem_children c.1.property

theorem positions_eq (n : Node) :
  n.positions = [] :: n.children.zipIdx.flatMap fun c => c.1.positions.map (c.2 :: ·)
  := by
  rw [positions]
  congr 1
  conv_rhs => rw [← List.attach_map_subtype_val n.children, List.zipIdx_map, List.flatMap_map]
  rfl

/-- There are nodes exactly at these positions. -/
theorem mem_positions_iff {n : Node} {p : Position} :
  p ∈ n.positions ↔ (n.at? p).isSome
  := by
  induction p generalizing n with
  | nil =>
    rw [positions_eq]
    exact iff_of_true List.mem_cons_self rfl
  | cons i p ih =>
    have hbelow : i :: p ∈ n.positions
        ↔ ∃ c ∈ n.children.zipIdx, i :: p ∈ c.1.positions.map (c.2 :: ·) := by
      rw [positions_eq, List.mem_cons, List.mem_flatMap]
      exact or_iff_right (List.cons_ne_nil i p)
    rw [hbelow, at?]
    constructor
    · rintro ⟨⟨c, j⟩, hc, hp⟩
      obtain ⟨q, hq, heq⟩ := List.mem_map.mp hp
      cases heq
      rw [List.mk_mem_zipIdx_iff_getElem?.mp hc]
      exact ih.mp hq
    · intro hsome
      cases hc : n.children[i]? with
      | none =>
        rw [hc] at hsome
        cases hsome
      | some c =>
        rw [hc] at hsome
        use (c, i), List.mk_mem_zipIdx_iff_getElem?.mpr hc
        exact List.mem_map_of_mem (ih.mpr hsome)

/-- The positions are in the order of the source. -/
theorem pairwise_positions (n : Node) :
  n.positions.Pairwise (List.Lex (· < ·))
  := by
  induction n using induction_children with
  | h n ih =>
    rw [positions_eq, List.pairwise_cons, List.pairwise_flatMap]
    refine ⟨?_, ?_, ?_⟩
    · intro p hp
      obtain ⟨c, -, hp⟩ := List.mem_flatMap.mp hp
      obtain ⟨q, -, rfl⟩ := List.mem_map.mp hp
      apply List.Lex.nil
    · rintro ⟨c, i⟩ hc
      rw [List.pairwise_map]
      apply (ih c (List.fst_mem_of_mem_zipIdx hc)).imp
      intro p q hpq
      apply List.Lex.cons hpq
    · have hindices : (n.children.zipIdx.map Prod.snd).Pairwise (· < ·) := by
        rw [List.zipIdx_map_snd]
        exact List.pairwise_lt_range' 1
      apply (List.pairwise_map.mp hindices).imp
      intro c d hcd p hp q hq
      obtain ⟨p', -, rfl⟩ := List.mem_map.mp hp
      obtain ⟨q', -, rfl⟩ := List.mem_map.mp hq
      apply List.Lex.rel hcd

/-! ### Walks -/

variable (skip : Kind → Bool)

/-- No node of a skipped kind is above a position. -/
def Reaches (n : Node) (p : Position) : Prop :=
  ∀ k < p.length, ∀ a ∈ n.at? (p.take k), skip a.kind = false

instance (n : Node) (p : Position) : Decidable (n.Reaches skip p) :=
  inferInstanceAs (Decidable (∀ k < p.length, ∀ a ∈ n.at? (p.take k), skip a.kind = false))

/-- The visit to the node at a position, in a walk from a node at a depth. -/
def visit? (depth : Nat) (n : Node) (p : Position) : Option Visit :=
  (n.at? p).map (⟨depth + p.length, ·⟩)

/-- The visits of a walk from a node at a depth. -/
def walkFrom (depth : Nat) : Node → List Visit
  | expr e => e.walk skip depth
  | stmt s => s.walk skip depth

variable {skip}

theorem reaches_nil (n : Node) :
  n.Reaches skip []
  := by
  intro k hk
  cases hk

section

variable {n c : Node} {i : Nat} (hc : n.children[i]? = some c)

include hc

theorem at?_cons (p : Position) :
  n.at? (i :: p) = c.at? p
  := by
  rw [at?, hc]
  rfl

theorem visit?_cons (depth : Nat) (p : Position) :
  n.visit? depth (i :: p) = c.visit? (depth + 1) p
  := by
  rw [visit?, at?_cons hc, List.length_cons, ← Nat.add_assoc, Nat.add_right_comm]
  rfl

theorem reaches_cons_iff (p : Position) :
  n.Reaches skip (i :: p) ↔ skip n.kind = false ∧ c.Reaches skip p
  := by
  constructor
  · intro h
    refine ⟨h 0 (Nat.succ_pos _) n rfl, ?_⟩
    intro k hk a ha
    apply h (k + 1) (Nat.succ_lt_succ hk)
    rw [List.take_succ_cons, at?_cons hc]
    exact ha
  · rintro ⟨hn, h⟩ k hk a ha
    cases k with
    | zero =>
      cases ha
      exact hn
    | succ k =>
      rw [List.take_succ_cons, at?_cons hc] at ha
      exact h k (Nat.lt_of_succ_lt_succ hk) a ha

/-- The visits to the positions below a node just below another one. -/
theorem map_visit?_below (depth : Nat) (ps : List Position) :
  ((ps.map (i :: ·)).filter fun p => n.Reaches skip p).map (n.visit? depth)
    = if skip n.kind then []
      else (ps.filter fun p => c.Reaches skip p).map (c.visit? (depth + 1))
  := by
  have hreaches : (fun p => decide (n.Reaches skip p)) ∘ (i :: ·)
      = fun p => !skip n.kind && decide (c.Reaches skip p) := by
    funext p
    simp [reaches_cons_iff hc]
  have hvisit : n.visit? depth ∘ (i :: ·) = c.visit? (depth + 1) := by
    funext p
    apply visit?_cons hc
  rw [List.filter_map, List.map_map, hreaches, hvisit]
  cases skip n.kind <;> simp

end

/-- Walks through expressions one after another are the walks from each. -/
theorem exprs_walkAll (depth : Nat) (l : List Expr) :
  Expr.walkAll skip depth l = (l.map expr).flatMap (walkFrom skip depth)
  := by
  induction l with
  | nil => rfl
  | cons e r ih =>
    rw [Expr.walkAll, ih]
    rfl

theorem stmts_walkAll (depth : Nat) (l : List Stmt) :
  Stmt.walkAll skip depth l = (l.map stmt).flatMap (walkFrom skip depth)
  := by
  induction l with
  | nil => rfl
  | cons e r ih =>
    rw [Stmt.walkAll, ih]
    rfl

/-- Below a name there is nothing to visit. -/
theorem walkFrom_name (depth : Nat) (n : Name) :
  walkFrom skip depth (expr (.name n)) = [⟨depth, expr (.name n)⟩]
  := by
  rw [walkFrom, Expr.walk, ite_self]

/-- A walk visits the node, and then what the walks from the nodes just below visit. -/
theorem walkFrom_eq (depth : Nat) (n : Node) :
  n.walkFrom skip depth
    = ⟨depth, n⟩ :: if skip n.kind then [] else n.children.flatMap (walkFrom skip (depth + 1))
  := by
  cases n with
  | expr e =>
    rw [walkFrom, Expr.walk.eq_def]
    apply congrArg (List.cons _)
    apply ite_congr rfl fun _ => rfl
    intro _
    cases e <;> simp [children, Expr.children, walkFrom, exprs_walkAll]
  | stmt s =>
    rw [walkFrom, Stmt.walk.eq_def]
    apply congrArg (List.cons _)
    apply ite_congr rfl fun _ => rfl
    intro _
    cases s with
    | result value => cases value <;> simp [children, Stmt.children, walkFrom]
    | function _ parameters body _ =>
      have hnames : parameters.map (fun n => Visit.mk (depth + 1) (expr (.name n)))
          = (parameters.map fun n => expr (.name n)).flatMap (walkFrom skip (depth + 1)) := by
        rw [List.flatMap_map, List.map_eq_flatMap]
        simp only [walkFrom_name]
      simp [children, Stmt.children, walkFrom, hnames]
    | _ => simp [children, Stmt.children, walkFrom, stmts_walkAll]

/-- What is done with nodes and their numbers, if the numbers do not matter. -/
theorem flatMap_zipIdx {α : Type} (g : Node → List α) (l : List Node) :
  (l.zipIdx.flatMap fun c => g c.1) = l.flatMap g
  := by
  conv_rhs => rw [← List.zipIdx_map_fst 0 l, List.flatMap_map]

/-- The visits of a walk are those to the positions above which nothing is skipped. -/
theorem map_some_walkFrom (depth : Nat) (n : Node) :
  (n.walkFrom skip depth).map some
    = (n.positions.filter fun p => n.Reaches skip p).map (n.visit? depth)
  := by
  induction n using induction_children generalizing depth with
  | h n ih =>
    have hbelow : ((n.children.zipIdx.flatMap fun c => c.1.positions.map (c.2 :: ·)).filter
          fun p => n.Reaches skip p).map (n.visit? depth)
        = n.children.flatMap fun c => if skip n.kind then []
          else (c.walkFrom skip (depth + 1)).map some := by
      rw [List.filter_flatMap, List.map_flatMap, ← flatMap_zipIdx]
      apply List.flatMap_congr
      rintro ⟨c, i⟩ hc
      rw [map_visit?_below (List.mk_mem_zipIdx_iff_getElem?.mp hc),
        ih c (List.fst_mem_of_mem_zipIdx hc)]
    have hnode : n.visit? depth [] = some ⟨depth, n⟩ := rfl
    rw [walkFrom_eq, positions_eq, List.filter_cons, if_pos (decide_eq_true (reaches_nil n)),
      List.map_cons, List.map_cons, hbelow, hnode]
    congr 1
    cases skip n.kind with
    | true => exact List.flatMap_eq_nil_iff.mpr (fun _ _ => rfl) |>.symm
    | false => exact List.map_flatMap

end Node

/-! ### Visitors that note what they visit -/

namespace Visitor

variable {skip : Kind → Bool} {v : Nat → Visitor (StateM (List Visit))}

/-- Actions each of which notes some visits note them one after another. -/
theorem run_forM {f : Node → StateM (List Visit) Unit} {g : Node → List Visit} {l : List Node}
    (h : ∀ c ∈ l, ∀ noted, (f c).run noted = ((), noted ++ g c)) (noted : List Visit) :
  (l.forM f).run noted = ((), noted ++ l.flatMap g)
  := by
  induction l generalizing noted with
  | nil =>
    rw [List.flatMap_nil, List.append_nil]
    rfl
  | cons c l ih =>
    obtain ⟨hc, hl⟩ := List.forall_mem_cons.mp h
    change (l.forM f).run ((f c).run noted).2 = _
    rw [hc, ih hl, List.append_assoc]
    rfl

/-- A visitor that notes nodes and goes on notes the visits of the walk. -/
theorem Notes.run (hv : Notes skip v) (n : Node) (depth : Nat) (noted : List Visit) :
  ((v depth).visit n).run noted = ((), noted ++ n.walkFrom skip depth)
  := by
  induction n using Node.induction_children generalizing depth noted with
  | h n ih =>
    rw [hv, Node.walkFrom_eq, List.append_cons]
    change (if skip n.kind then pure () else n.visitBelow (v (depth + 1)) :
      StateM (List Visit) Unit).run (noted ++ [⟨depth, n⟩]) = _
    by_cases hskip : skip n.kind = true
    · rw [if_pos hskip, if_pos hskip, List.append_nil]
      rfl
    · rw [if_neg hskip, if_neg hskip, Node.visitBelow_eq]
      exact run_forM (fun c hc => ih c hc (depth + 1)) (noted ++ [⟨depth, n⟩])

/-- Visitors that note the walks from all nodes. -/
def noting (skip : Kind → Bool) (depth : Nat) : Visitor (StateM (List Visit)) where
  stmt s := modify (· ++ s.walk skip depth)
  expr e := modify (· ++ e.walk skip depth)

theorem run_noting (depth : Nat) (n : Node) (noted : List Visit) :
  ((noting skip depth).visit n).run noted = ((), noted ++ n.walkFrom skip depth)
  := by
  cases n <;> rfl

/-- There are visitors that note nodes and go on. -/
theorem notes_noting (skip : Kind → Bool) :
  Notes skip (noting skip)
  := by
  intro depth n
  funext noted
  change ((noting skip depth).visit n).run noted
    = (if skip n.kind then pure () else n.visitBelow (noting skip (depth + 1)) :
        StateM (List Visit) Unit).run (noted ++ [⟨depth, n⟩])
  rw [run_noting, Node.walkFrom_eq, List.append_cons]
  by_cases hskip : skip n.kind = true
  · rw [if_pos hskip, if_pos hskip, List.append_nil]
    rfl
  · rw [if_neg hskip, if_neg hskip, Node.visitBelow_eq]
    exact (run_forM (fun c _ => run_noting (depth + 1) c) (noted ++ [⟨depth, n⟩])).symm

variable {v₀ : Nat → Visitor (StateM (List Visit))}

/-- A visitor that notes nodes and goes on visits each node once, in the order of the source: the
positions of the nodes come in the order of their numbers, a position before those below it, and
each node is noted with the number of the levels above it.  With a set of kinds that are skipped,
what is noted are the nodes above which none of these kinds stands, so that from the full log
exactly the nodes below those of skipped kinds are missing.  The walk tells the same. -/
theorem log_in_source_order (hv₀ : Notes (fun _ => false) v₀) (hv : Notes skip v) (n : Node) :
  n.positions.Pairwise (List.Lex (· < ·))
  ∧ (∀ p, p ∈ n.positions ↔ (n.at? p).isSome)
  ∧ ((v₀ 0).log n).map some = n.positions.map (n.visit? 0)
  ∧ ((v 0).log n).map some
    = (n.positions.filter fun p => n.Reaches skip p).map (n.visit? 0)
  ∧ (v 0).log n = n.walk skip
  := by
  have hlog {skip : Kind → Bool} {v : Nat → Visitor (StateM (List Visit))} (hv : Notes skip v) :
      (v 0).log n = n.walkFrom skip 0 := by
    rw [log, hv.run]
    rfl
  refine ⟨n.pairwise_positions, fun p => Node.mem_positions_iff, ?_, ?_, ?_⟩
  · have hall : (n.positions.filter fun p => n.Reaches (fun _ => false) p) = n.positions :=
      List.filter_eq_self.mpr fun p _ => decide_eq_true fun _ _ _ _ => rfl
    rw [hlog hv₀, Node.map_some_walkFrom, hall]
  · rw [hlog hv, Node.map_some_walkFrom]
  · rw [hlog hv]
    cases n <;> rfl

/-- A counted loop whose condition is a call and whose update negates a variable. -/
def loopWithCall : Node :=
  .stmt (.forLoop (.declare "i" (.int 0 none) none)
    (.call "f" [.name ⟨"i", none⟩, .int 1 none] none)
    (.assign (.name ⟨"i", none⟩) (.unary .neg (.name ⟨"i", none⟩) none) none)
    (.result none none) none)

theorem log_in_source_order_loop :
  ∃ v₀ v, Notes (fun _ => false) v₀ ∧ Notes (· = .unary) v
    ∧ ((v₀ 0).log loopWithCall).map some
      = loopWithCall.positions.map (loopWithCall.visit? 0)
    ∧ ((v 0).log loopWithCall).map some
      = (loopWithCall.positions.filter fun p => loopWithCall.Reaches (· = .unary) p).map
        (loopWithCall.visit? 0)
    ∧ ((v 0).log loopWithCall).map (fun visit => (visit.depth, visit.node.kind))
      = [(0, .forLoop), (1, .declaration), (2, .intLiteral), (1, .call), (2, .identifier),
        (2, .intLiteral), (1, .assignment), (2, .identifier), (2, .unary), (1, .result)]
  := by
  have hnoting₀ := notes_noting fun _ => false
  have hnoting := notes_noting fun k => decide (k = .unary)
  obtain ⟨-, -, hfull, hskipped, -⟩ := log_in_source_order hnoting₀ hnoting loopWithCall
  exact ⟨_, _, hnoting₀, hnoting, hfull, hskipped, by rfl⟩

end Visitor

end Source

end StackMachine
