import LoxKit.Scope.Basic

/-!
# Linking references

Linking finds for each reference of a program the declaration that it means, as the number of
scopes between them, and checks the rules that need the scopes: no two declarations of one name in
a local scope, no local variable in its own initializer, and `return`, `this` and `super` only
where they mean something.

An expression opens no scope and declares nothing, so linking it only reads the scopes. A statement
may declare names in the innermost scope, and the scopes it leaves are those that the next
statement finds.

Headlines:
* `linkProgram`: a program with its references linked, and the issues found on the way.
* `Linked.map_tree`, `Linked.map_issues`: what happens to a tree does not touch its issues.
-/

namespace LoxKit

/-- The kind of function around a statement. -/
inductive FunctionKind where
  | none
  | function
  | initializer
  | method
  deriving Repr, DecidableEq

/-- The kind of class around an expression. -/
inductive ClassKind where
  | none
  | root
  | subclass
  deriving Repr, DecidableEq

/-- What lies around a place of a program, besides the scopes. -/
structure Surroundings where
  function : FunctionKind
  enclosingClass : ClassKind
  deriving Repr, DecidableEq

/-- Outside all functions and classes. -/
def Surroundings.topLevel : Surroundings :=
  ⟨.none, .none⟩

/-- A linked tree and the issues found in it. -/
structure Linked (α : Type) where
  tree : α
  issues : List Issue

/-- Changes a tree and keeps its issues. -/
def Linked.map {α β : Type} (f : α → β) (l : Linked α) : Linked β :=
  ⟨f l.tree, l.issues⟩

@[simp]
theorem Linked.map_tree {α β : Type} (f : α → β) (l : Linked α) : (l.map f).tree = f l.tree := rfl

@[simp]
theorem Linked.map_issues {α β : Type} (f : α → β) (l : Linked α) :
    (l.map f).issues = l.issues := rfl

/-- A linked tree, the issues found in it, and the scopes behind it. -/
structure LinkedStmt (α : Type) where
  tree : α
  scopes : Scopes
  issues : List Issue

/-- Links a variable that is read. -/
def linkVar (scopes : Scopes) (r : Reference Unit) : Linked (Reference Link) :=
  { tree := ⟨r.name, scopes.hops? r.name.text⟩
    issues :=
      if scopes.isPending r.name.text then
        [.atLexeme r.name.pos r.name.text .readInOwnInitializer]
      else [] }

/-- What is wrong with `super` in its surroundings, if anything is. -/
def superComplaint? (around : Surroundings) : Option Complaint :=
  match around.enclosingClass with
  | .none => some .superOutsideClass
  | .root => some .superWithoutSuperclass
  | .subclass => none

/-- Links an expression. The issues are in the order of evaluation, except that the value of a
field comes before the object. -/
def linkExpr (around : Surroundings) (scopes : Scopes) : Expr Unit → Linked (Expr Link)
  | .literal value token => ⟨.literal value token, []⟩
  | .grouping inner => (linkExpr around scopes inner).map .grouping
  | .unary op pos arg => (linkExpr around scopes arg).map (.unary op pos)
  | .binary op pos lhs rhs =>
    let l := linkExpr around scopes lhs
    let r := linkExpr around scopes rhs
    ⟨.binary op pos l.tree r.tree, l.issues ++ r.issues⟩
  | .logical op pos lhs rhs =>
    let l := linkExpr around scopes lhs
    let r := linkExpr around scopes rhs
    ⟨.logical op pos l.tree r.tree, l.issues ++ r.issues⟩
  | .var target => (linkVar scopes target).map .var
  | .assign target value =>
    (linkExpr around scopes value).map (.assign ⟨target.name, scopes.hops? target.name.text⟩)
  | .call callee args paren =>
    let c := linkExpr around scopes callee
    let as := args.map (linkExpr around scopes)
    ⟨.call c.tree (as.map Linked.tree) paren, c.issues ++ as.flatMap Linked.issues⟩
  | .get object field => (linkExpr around scopes object).map (.get · field)
  | .set object field value =>
    let v := linkExpr around scopes value
    let o := linkExpr around scopes object
    ⟨.set o.tree field v.tree, v.issues ++ o.issues⟩
  | .this target =>
    if around.enclosingClass = .none then
      ⟨.this ⟨target.name, none⟩, [.atLexeme target.name.pos target.name.text .thisOutsideClass]⟩
    else ⟨.this ⟨target.name, scopes.hops? target.name.text⟩, []⟩
  | .super target method =>
    { tree := .super ⟨target.name, scopes.hops? target.name.text⟩ method
      issues := (superComplaint? around).toList.map (.atLexeme target.name.pos target.name.text) }

/-- Links an expression that may be missing. -/
def linkExpr? (around : Surroundings) (scopes : Scopes) :
    Option (Expr Unit) → Linked (Option (Expr Link))
  | none => ⟨none, []⟩
  | some e => (linkExpr around scopes e).map some

/-- What is wrong with a return statement in its surroundings. -/
def returnIssues (around : Surroundings) (keyword : Pos) (hasValue : Bool) : List Issue :=
  let issue := Issue.atLexeme keyword Keyword.return.word
  match around.function with
  | .none => [issue .returnAtTopLevel]
  | .initializer => if hasValue then [issue .returnValueFromInitializer] else []
  | _ => []

/-- The superclass of a class, linked behind the declaration of the class. -/
def linkSuperclass (scopes : Scopes) (name : Name) :
    Option (Reference Unit) → Linked (Option (Reference Link))
  | none => ⟨none, []⟩
  | some r =>
    let own :=
      if r.name.text = name.text then
        [Issue.atLexeme r.name.pos r.name.text .inheritsFromItself]
      else []
    let linked := linkVar scopes r
    ⟨some linked.tree, own ++ linked.issues⟩

/-- The scopes around the methods of a class: one for `this` and, outside it, one for `super` if
there is a superclass. -/
def methodScopes (scopes : Scopes) (hasSuperclass : Bool) : Scopes :=
  .single Keyword.this.word ::
    if hasSuperclass then .single Keyword.super.word :: scopes else scopes

/-- The surroundings of the methods of a class. -/
def methodSurroundings (around : Surroundings) (hasSuperclass : Bool) : Surroundings :=
  { around with enclosingClass := if hasSuperclass then .subclass else .root }

/-- The kind of function that a method is. -/
def methodKind (f : Function Unit) : FunctionKind :=
  if f.name.text = initName then .initializer else .method

mutual

/-- Links a statement. -/
def linkStmt (around : Surroundings) (scopes : Scopes) : Stmt Unit → LinkedStmt (Stmt Link)
  | .expression e =>
    let l := linkExpr around scopes e
    ⟨.expression l.tree, scopes, l.issues⟩
  | .print e =>
    let l := linkExpr around scopes e
    ⟨.print l.tree, scopes, l.issues⟩
  | .var name initializer =>
    let (declared, issues) := scopes.declare name
    let l := linkExpr? around declared initializer
    ⟨.var name l.tree, declared.define name, issues ++ l.issues⟩
  | .block body =>
    let l := linkStmts around (Bindings.empty :: scopes) body
    ⟨.block l.tree, scopes, l.issues⟩
  | .ifThen condition thenPart =>
    let c := linkExpr around scopes condition
    let t := linkStmt around scopes thenPart
    ⟨.ifThen c.tree t.tree, t.scopes, c.issues ++ t.issues⟩
  | .ifElse condition thenPart elsePart =>
    let c := linkExpr around scopes condition
    let t := linkStmt around scopes thenPart
    let e := linkStmt around t.scopes elsePart
    ⟨.ifElse c.tree t.tree e.tree, e.scopes, c.issues ++ t.issues ++ e.issues⟩
  | .whileDo condition body =>
    let c := linkExpr around scopes condition
    let b := linkStmt around scopes body
    ⟨.whileDo c.tree b.tree, b.scopes, c.issues ++ b.issues⟩
  | .function f =>
    let (declared, issues) := scopes.introduce f.name
    let l := linkFunction { around with function := .function } declared f
    ⟨.function l.tree, declared, issues ++ l.issues⟩
  | .giveBack keyword value =>
    let l := linkExpr? around scopes value
    ⟨.giveBack keyword l.tree, scopes, returnIssues around keyword value.isSome ++ l.issues⟩
  | .classDecl name superclass methods =>
    let (declared, issues) := scopes.introduce name
    let s := linkSuperclass declared name superclass
    let inside := methodSurroundings around superclass.isSome
    let ms := methods.map fun f =>
      linkFunction { inside with function := methodKind f }
        (methodScopes declared superclass.isSome) f
    { tree := .classDecl name s.tree (ms.map Linked.tree)
      scopes := declared
      issues := issues ++ s.issues ++ ms.flatMap Linked.issues }

/-- Links statements one after the other. -/
def linkStmts (around : Surroundings) (scopes : Scopes) :
    List (Stmt Unit) → LinkedStmt (List (Stmt Link))
  | [] => ⟨[], scopes, []⟩
  | stmt :: stmts =>
    let first := linkStmt around scopes stmt
    let rest := linkStmts around first.scopes stmts
    ⟨first.tree :: rest.tree, rest.scopes, first.issues ++ rest.issues⟩

/-- Links a function. Its parameters and its body share one scope. -/
def linkFunction (around : Surroundings) (scopes : Scopes) :
    Function Unit → Linked (Function Link)
  | .mk name params body =>
    let (inside, issues) := Scopes.introduceAll (Bindings.empty :: scopes) params
    let l := linkStmts around inside body
    ⟨.mk name params l.tree, issues ++ l.issues⟩

end

/-- Links a program. -/
def linkProgram (stmts : List (Stmt Unit)) : Linked (List (Stmt Link)) :=
  let l := linkStmts .topLevel [] stmts
  ⟨l.tree, l.issues⟩

end LoxKit
