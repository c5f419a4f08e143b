import LoxKit.Proofs.Syntax.Proper

/-!
# Nodes

A node is whatever runs by itself: an expression, expressions in a row, a statement, statements in
a row, or one round of a loop. Functions and methods are nodes too, though only their bodies run.
The parts of a node are numbered in the order in which they run.

Headlines:
* `Node.part`: the parts of a node.
* `Node.Proper.part`: the parts of a proper node are proper.
-/

namespace LoxKit

/-- What runs by itself. -/
inductive Node (ρ : Type) where
  | expr (e : Expr ρ)
  | exprs (es : List (Expr ρ))
  | stmt (stmt : Stmt ρ)
  | stmts (stmts : List (Stmt ρ))
  | loop (condition : Expr ρ) (body : Stmt ρ)
  /-- A function in the scopes of its declaration. -/
  | function (f : Function ρ)
  /-- A method that belongs to no object yet. -/
  | method (f : Function ρ)

namespace Node

variable {ρ : Type}

/-- The parts of an expression, apart from arguments in the order of evaluation. -/
def exprPart : Expr ρ → Nat → Option (Node ρ)
  | .grouping inner, 0 => some (.expr inner)
  | .unary _ _ arg, 0 => some (.expr arg)
  | .binary _ _ lhs _, 0 => some (.expr lhs)
  | .binary _ _ _ rhs, 1 => some (.expr rhs)
  | .logical _ _ lhs _, 0 => some (.expr lhs)
  | .logical _ _ _ rhs, 1 => some (.expr rhs)
  | .assign _ value, 0 => some (.expr value)
  | .call callee _ _, 0 => some (.expr callee)
  | .call _ args _, 1 => some (.exprs args)
  | .get object _, 0 => some (.expr object)
  | .set object _ _, 0 => some (.expr object)
  | .set _ _ value, 1 => some (.expr value)
  | _, _ => none

/-- The parts of a statement that run in the scopes of the statement. -/
def stmtPart : Stmt ρ → Nat → Option (Node ρ)
  | .expression e, 0 => some (.expr e)
  | .print e, 0 => some (.expr e)
  | .var _ (some e), 0 => some (.expr e)
  | .ifThen condition _, 0 => some (.expr condition)
  | .ifThen _ thenPart, 1 => some (.stmt thenPart)
  | .ifElse condition _ _, 0 => some (.expr condition)
  | .ifElse _ thenPart _, 1 => some (.stmt thenPart)
  | .ifElse _ _ elsePart, 2 => some (.stmt elsePart)
  | .whileDo condition body, 0 => some (.loop condition body)
  | .giveBack _ (some e), 0 => some (.expr e)
  | .classDecl _ (some r) _, 0 => some (.expr (.var r))
  | _, _ => none

/-- The parts of a node. A loop is its own third part, for the next round. -/
def part : Node ρ → Nat → Option (Node ρ)
  | .expr e, i => exprPart e i
  | .exprs (e :: _), 0 => some (.expr e)
  | .exprs (_ :: es), 1 => some (.exprs es)
  | .stmt st, i => stmtPart st i
  | .stmts (st :: _), 0 => some (.stmt st)
  | .stmts (_ :: sts), 1 => some (.stmts sts)
  | .loop condition _, 0 => some (.expr condition)
  | .loop _ body, 1 => some (.stmt body)
  | .loop condition body, 2 => some (.loop condition body)
  | _, _ => none

/-- Whether a node only computes values. -/
def computes : Node ρ → Bool
  | .expr _ | .exprs _ => true
  | _ => false

/-- Whether a node runs by itself: of a function or a method only the body does. -/
def runs : Node ρ → Bool
  | .function _ | .method _ => false
  | _ => true

/-- The nodes that reading can give. -/
def Proper : Node ρ → Prop
  | .expr e => e.Proper
  | .exprs es => ∀ e ∈ es, e.Proper
  | .stmt st => st.Proper
  | .stmts sts => ∀ st ∈ sts, st.Proper
  | .loop condition body => condition.Proper ∧ body.Proper ∧ body.declares = []
  | .function f => f.Proper
  | .method f => f.Proper

theorem proper_exprPart {e : Expr ρ} {i : Nat} {n : Node ρ} (h : e.Proper)
    (hn : exprPart e i = some n) : n.Proper := by
  unfold exprPart at hn
  split at hn <;> cases hn
  · cases h with | grouping h => exact h
  · cases h with | unary _ _ h => exact h
  · cases h with | binary _ _ hl _ => exact hl
  · cases h with | binary _ _ _ hr => exact hr
  · cases h with | logical _ _ hl _ => exact hl
  · cases h with | logical _ _ _ hr => exact hr
  · cases h with | assign _ hv => exact hv
  · cases h with | call _ hc _ => exact hc
  · cases h with | call _ _ ha => exact ha
  · cases h with | get _ h => exact h
  · cases h with | set _ ho _ => exact ho
  · cases h with | set _ _ hv => exact hv

theorem proper_stmtPart {st : Stmt ρ} {i : Nat} {n : Node ρ} (h : st.Proper)
    (hn : stmtPart st i = some n) : n.Proper := by
  unfold stmtPart at hn
  split at hn <;> cases hn
  · cases h with | expression h => exact h
  · cases h with | print h => exact h
  · cases h with | var _ hi => exact hi _ rfl
  · cases h with | ifThen hc _ _ => exact hc
  · cases h with | ifThen _ ht _ => exact ht
  · cases h with | ifElse hc _ _ _ _ => exact hc
  · cases h with | ifElse _ ht _ _ _ => exact ht
  · cases h with | ifElse _ _ _ he _ => exact he
  · cases h with | whileDo hc hb hd => exact ⟨hc, hb, hd⟩
  · cases h with | giveBack _ hv => exact hv _ rfl
  · cases h with | classDecl _ hs _ => exact .var (hs _ rfl)

/-- The parts of a proper node are proper. -/
theorem Proper.part {n n' : Node ρ} {i : Nat} (h : n.Proper) (hn : n.part i = some n') :
    n'.Proper := by
  unfold Node.part at hn
  split at hn
  · exact proper_exprPart h hn
  · cases hn
    exact h _ List.mem_cons_self
  · cases hn
    exact fun e he => h e (List.mem_cons_of_mem _ he)
  · exact proper_stmtPart h hn
  · cases hn
    exact h _ List.mem_cons_self
  · cases hn
    exact fun st hst => h st (List.mem_cons_of_mem _ hst)
  · cases hn
    exact h.1
  · cases hn
    exact h.2.1
  · cases hn
    exact h
  · exact absurd hn (by simp)

/-- A function or a method is never a part. -/
theorem part_runs {n n' : Node ρ} {i : Nat} (hn : n.part i = some n') : n'.runs = true := by
  unfold part at hn
  split at hn
  · unfold exprPart at hn
    split at hn <;> cases hn <;> rfl
  · cases hn
    rfl
  · cases hn
    rfl
  · unfold stmtPart at hn
    split at hn <;> cases hn <;> rfl
  all_goals
    cases hn
    try rfl

end Node

end LoxKit
