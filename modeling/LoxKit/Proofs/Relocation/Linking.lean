import LoxKit.Proofs.Relocation.Tree
import LoxKit.Proofs.Session.History

/-!
# Linking what is moved

Linking looks at names and never at places, so that moving a tree and linking it are two steps that
can change their order. The statements of a program stand in no scope, so that linking one program
behind another gives both of them as they are on their own.

Headlines:
* `linkExpr_move`, `linkStmt_move`: linking a tree that is moved.
* **`linkProgram_move`**, **`linkProgram_append`**: a program that is moved, and one behind another.
-/

namespace LoxKit

variable {f : Pos → Pos}

/-- A linked tree, moved, and its issues with it. -/
def Linked.move {α : Type} (f : Pos → Pos) (change : α → α) (l : Linked α) : Linked α :=
  ⟨change l.tree, l.issues.map (Issue.move f)⟩

/-- A linked statement, moved, and its issues with it. The scopes behind it are the same. -/
def LinkedStmt.move {α : Type} (f : Pos → Pos) (change : α → α) (l : LinkedStmt α) : LinkedStmt α :=
  ⟨change l.tree, l.scopes, l.issues.map (Issue.move f)⟩

/-! ## Scopes -/

namespace Scopes

theorem declare_move (scopes : Scopes) (name : Name) :
    scopes.declare (name.move f) =
      ((scopes.declare name).1, (scopes.declare name).2.map (Issue.move f)) := by
  cases scopes with
  | nil => rfl
  | cons scope outer =>
    unfold declare
    by_cases hc : scope.contains name.text = true
    · have hc' : scope.contains (name.move f).text = true := hc
      dsimp only
      rw [if_pos hc, if_pos hc']
      rfl
    · have hc' : ¬scope.contains (name.move f).text = true := hc
      dsimp only
      rw [if_neg hc, if_neg hc']
      rfl

theorem introduce_move (scopes : Scopes) (name : Name) :
    scopes.introduce (name.move f) =
      ((scopes.introduce name).1, (scopes.introduce name).2.map (Issue.move f)) := by
  simp only [introduce, declare_move]
  rfl

theorem introduceAll_move (names : List Name) : ∀ scopes : Scopes,
    scopes.introduceAll (names.map (Name.move f)) =
      ((scopes.introduceAll names).1, (scopes.introduceAll names).2.map (Issue.move f)) := by
  induction names with
  | nil => exact fun _ => rfl
  | cons name names ih =>
    intro scopes
    simp only [List.map_cons, introduceAll, introduce_move, ih, List.map_append]

end Scopes

/-! ## Expressions -/

theorem linkVar_move (scopes : Scopes) (r : Reference Unit) :
    linkVar scopes (r.move f) = (linkVar scopes r).move f (Reference.move f) := by
  unfold linkVar Linked.move
  rw [Reference.move_text, Linked.mk.injEq]
  refine ⟨rfl, ?_⟩
  split <;> rfl

theorem superIssues_move (around : Surroundings) (name : Name) :
    (superComplaint? around).toList.map (Issue.atLexeme (f name.pos) name.text) =
      ((superComplaint? around).toList.map (Issue.atLexeme name.pos name.text)).map
        (Issue.move f) := by
  rw [List.map_map]
  rfl

/-- Linking an expression that is moved. -/
theorem linkExpr_move (around : Surroundings) (scopes : Scopes) : ∀ e : Expr Unit,
    linkExpr around scopes (e.move f) = (linkExpr around scopes e).move f (Expr.move f)
  | .literal value token => by
    simp only [Expr.move, linkExpr, Linked.move, List.map_nil]
  | .grouping inner => by
    simp only [Expr.move, linkExpr, linkExpr_move around scopes inner, Linked.map, Linked.move]
  | .unary op pos arg => by
    simp only [Expr.move, linkExpr, linkExpr_move around scopes arg, Linked.map, Linked.move]
  | .binary op pos lhs rhs => by
    simp only [Expr.move, linkExpr, linkExpr_move around scopes lhs, linkExpr_move around scopes rhs,
      Linked.move, List.map_append]
  | .logical op pos lhs rhs => by
    simp only [Expr.move, linkExpr, linkExpr_move around scopes lhs, linkExpr_move around scopes rhs,
      Linked.move, List.map_append]
  | .var target => by
    simp only [Expr.move, linkExpr, linkVar_move, Linked.map, Linked.move]
  | .assign target value => by
    simp only [Expr.move, linkExpr, linkExpr_move around scopes value, Linked.map, Linked.move]
    rfl
  | .call callee args paren => by
    have hargs : (args.map (Expr.move f)).map (linkExpr around scopes) =
        args.map fun e => (linkExpr around scopes e).move f (Expr.move f) := by
      rw [List.map_map]
      exact List.map_congr_left fun e he => linkExpr_move around scopes e
    simp only [Expr.move, linkExpr, linkExpr_move around scopes callee, hargs, Linked.move,
      List.map_map, List.flatMap_map, List.map_append, List.map_flatMap]
    rfl
  | .get object field => by
    simp only [Expr.move, linkExpr, linkExpr_move around scopes object, Linked.map, Linked.move]
  | .set object field value => by
    simp only [Expr.move, linkExpr, linkExpr_move around scopes object,
      linkExpr_move around scopes value, Linked.move, List.map_append]
  | .this target => by
    by_cases hk : around.enclosingClass = .none
    · simp only [Expr.move, linkExpr, if_pos hk, Linked.move]
      rfl
    · simp only [Expr.move, linkExpr, if_neg hk, Linked.move]
      rfl
  | .super target method => by
    simp only [Expr.move, linkExpr, Linked.move, ← superIssues_move]
    rfl

theorem linkExpr?_move (around : Surroundings) (scopes : Scopes) (e : Option (Expr Unit)) :
    linkExpr? around scopes (e.map (Expr.move f)) =
      (linkExpr? around scopes e).move f (Option.map (Expr.move f)) := by
  cases e with
  | none => rfl
  | some e =>
    simp only [Option.map_some, linkExpr?, linkExpr_move, Linked.map, Linked.move]

theorem linkSuperclass_move (scopes : Scopes) (name : Name) (r : Option (Reference Unit)) :
    linkSuperclass scopes (name.move f) (r.map (Reference.move f)) =
      (linkSuperclass scopes name r).move f (Option.map (Reference.move f)) := by
  cases r with
  | none => rfl
  | some r =>
    simp only [Option.map_some, linkSuperclass, linkVar_move, Linked.move, List.map_append]
    by_cases hown : r.name.text = name.text
    · have hown' : (r.move f).name.text = (name.move f).text := hown
      rw [if_pos hown, if_pos hown']
      rfl
    · have hown' : ¬(r.move f).name.text = (name.move f).text := hown
      rw [if_neg hown, if_neg hown']
      rfl

theorem returnIssues_move (around : Surroundings) (keyword : Pos) (hasValue : Bool) :
    returnIssues around (f keyword) hasValue =
      (returnIssues around keyword hasValue).map (Issue.move f) := by
  unfold returnIssues
  cases around.function with
  | none => rfl
  | initializer => cases hasValue <;> rfl
  | function | method => rfl

theorem methodKind_move (g : Function Unit) : methodKind (g.move f) = methodKind g := by
  unfold methodKind
  rw [Function.move_name, Name.move_text]

/-! ## Statements -/

/-- Statements that are linked as they are when they are moved are so one after the other. -/
theorem linkStmts_move_of {sts : List (Stmt Unit)} (around : Surroundings)
    (ih : ∀ st ∈ sts, ∀ scopes,
      linkStmt around scopes (st.move f) = (linkStmt around scopes st).move f (Stmt.move f)) :
    ∀ scopes, linkStmts around scopes (sts.map (Stmt.move f)) =
      (linkStmts around scopes sts).move f (List.map (Stmt.move f)) := by
  induction sts with
  | nil => exact fun _ => by simp only [List.map_nil, linkStmts, LinkedStmt.move]
  | cons st sts ih' =>
    intro scopes
    rw [List.forall_mem_cons] at ih
    simp only [List.map_cons, linkStmts, ih.1, LinkedStmt.move, ih' ih.2, List.map_append]

mutual

/-- Linking a statement that is moved. -/
theorem linkStmt_move (around : Surroundings) (scopes : Scopes) : ∀ st : Stmt Unit,
    linkStmt around scopes (st.move f) = (linkStmt around scopes st).move f (Stmt.move f)
  | .expression e => by
    simp only [Stmt.move, linkStmt, linkExpr_move, Linked.move, LinkedStmt.move]
  | .print e => by
    simp only [Stmt.move, linkStmt, linkExpr_move, Linked.move, LinkedStmt.move]
  | .var name initializer => by
    simp only [Stmt.move, linkStmt, Scopes.declare_move, linkExpr?_move, Linked.move,
      LinkedStmt.move, List.map_append]
    rfl
  | .block body => by
    have hbody : ∀ scopes, linkStmts around scopes (body.map (Stmt.move f)) =
        (linkStmts around scopes body).move f (List.map (Stmt.move f)) :=
      linkStmts_move_of around fun st hst scopes => linkStmt_move around scopes st
    simp only [Stmt.move, linkStmt, hbody, LinkedStmt.move]
  | .ifThen condition thenPart => by
    simp only [Stmt.move, linkStmt, linkExpr_move, linkStmt_move around scopes thenPart, Linked.move,
      LinkedStmt.move, List.map_append]
  | .ifElse condition thenPart elsePart => by
    simp only [Stmt.move, linkStmt, linkExpr_move, linkStmt_move around scopes thenPart,
      LinkedStmt.move, linkStmt_move around _ elsePart, Linked.move, List.map_append]
  | .whileDo condition body => by
    simp only [Stmt.move, linkStmt, linkExpr_move, linkStmt_move around scopes body, Linked.move,
      LinkedStmt.move, List.map_append]
  | .function g => by
    simp only [Stmt.move, linkStmt, Function.move_name, Scopes.introduce_move,
      linkFunction_move _ _ g, Linked.move, LinkedStmt.move, List.map_append]
  | .giveBack keyword value => by
    simp only [Stmt.move, linkStmt, linkExpr?_move, Option.isSome_map, returnIssues_move, Linked.move,
      LinkedStmt.move, List.map_append]
  | .classDecl name superclass methods => by
    have hmethods : ∀ (inside : Surroundings) (declared : Scopes),
        (methods.map (Function.move f)).map (fun g =>
          linkFunction { inside with function := methodKind g } declared g) =
        methods.map fun g => (linkFunction { inside with function := methodKind g } declared g).move f
          (Function.move f) := by
      intro inside declared
      rw [List.map_map]
      refine List.map_congr_left fun g hg => ?_
      simp only [Function.comp_apply, methodKind_move, linkFunction_move _ _ g]
    simp only [Stmt.move, linkStmt, Scopes.introduce_move, linkSuperclass_move, Option.isSome_map,
      hmethods, Linked.move, LinkedStmt.move, List.map_append, List.map_map, List.flatMap_map,
      List.map_flatMap]
    rfl

/-- Linking a function that is moved. -/
theorem linkFunction_move (around : Surroundings) (scopes : Scopes) : ∀ g : Function Unit,
    linkFunction around scopes (g.move f) = (linkFunction around scopes g).move f (Function.move f)
  | .mk name params body => by
    have hbody : ∀ scopes, linkStmts around scopes (body.map (Stmt.move f)) =
        (linkStmts around scopes body).move f (List.map (Stmt.move f)) :=
      linkStmts_move_of around fun st hst scopes => linkStmt_move around scopes st
    simp only [Function.move, linkFunction, Scopes.introduceAll_move, hbody, LinkedStmt.move,
      Linked.move, List.map_append]

end

/-! ## Programs -/

/-- **Linking a program that is moved.** -/
theorem linkProgram_move (stmts : List (Stmt Unit)) :
    linkProgram (stmts.map (Stmt.move f)) = (linkProgram stmts).move f (List.map (Stmt.move f)) := by
  simp only [linkProgram, linkStmts_move_of .topLevel fun st _ scopes => linkStmt_move _ scopes st,
    LinkedStmt.move, Linked.move]

/-- **Linking a program behind another.** -/
theorem linkProgram_append {stmts stmts' : List (Stmt Unit)} (hp : ∀ st ∈ stmts, st.Proper) :
    linkProgram (stmts ++ stmts') =
      ⟨(linkProgram stmts).tree ++ (linkProgram stmts').tree,
        (linkProgram stmts).issues ++ (linkProgram stmts').issues⟩ := by
  induction stmts with
  | nil => simp only [linkProgram, List.nil_append, linkStmts]
  | cons st stmts ih =>
    rw [List.forall_mem_cons] at hp
    have hscopes : (linkStmt .topLevel [] st).scopes = [] := by
      rw [scopes_linkStmt .topLevel hp.1, foldl_add_nil]
    have hrest := ih hp.2
    simp only [linkProgram, Linked.mk.injEq] at hrest ⊢
    simp only [List.cons_append, linkStmts, hscopes, hrest.1, hrest.2, List.append_assoc, and_self]

end LoxKit
