import LoxKit.Syntax.Basic

/-!
# Outlines

The outline of a tree lists its nodes in reading order, each node before its parts. An entry holds
the kind of the node, its short description if it has one, its anchor if it is an expression, and
what is known about it if it is a reference.

Headlines:
* `Entry.ofStmts`: the outline of a program.
* `Entry.locals`: its references to local declarations.
-/

namespace LoxKit

/-- The kinds of nodes. -/
inductive NodeKind where
  | literal | grouping | unary | binary | logical | var | assign | call | get | set | this | super
  | expressionStmt | printStmt | varDecl | block | ifStmt | whileStmt | functionDecl | returnStmt
  | classDecl
  deriving Repr, DecidableEq

/-- One node of a tree. -/
structure Entry (ρ : Type) where
  kind : NodeKind
  description : Option String
  anchor : Option Token
  link : Option ρ

/-- The value of a literal for display. -/
def Literal.display : Literal → String
  | nil => "None"
  | bool b => if b then "True" else "False"
  | number x => Decimal.source.text x
  | string s => Text.quoted s

/-- The short description of a function: its name and the number of its parameters. -/
def Function.description {ρ : Type} (f : Function ρ) : String :=
  "<fun " ++ f.name.text ++ "/" ++ toString f.params.length ++ ">"

namespace Entry

variable {ρ : Type}

/-- The entry of an expression that is no reference. -/
def plain (kind : NodeKind) (e : Expr ρ) (description : Option String) : Entry ρ :=
  ⟨kind, description, some e.anchor, none⟩

/-- The entry of a reference. -/
def reference (kind : NodeKind) (e : Expr ρ) (description : Option String) (link : ρ) : Entry ρ :=
  ⟨kind, description, some e.anchor, some link⟩

/-- The entry of a statement. -/
def statement (kind : NodeKind) (description : Option String) : Entry ρ :=
  ⟨kind, description, none, none⟩

/-- The entry of a variable that is read. -/
def ofVar (target : Reference ρ) : Entry ρ :=
  .reference .var (.var target) (some ("<ref:" ++ target.name.text ++ ">")) target.link

/-- The outline of an expression. -/
def ofExpr (e : Expr ρ) : List (Entry ρ) :=
  match e with
  | .literal value _ => [.plain .literal e (some ("<Literal " ++ value.display ++ ">"))]
  | .grouping inner => .plain .grouping e none :: ofExpr inner
  | .unary _ _ arg => .plain .unary e none :: ofExpr arg
  | .binary _ _ lhs rhs => .plain .binary e none :: (ofExpr lhs ++ ofExpr rhs)
  | .logical _ _ lhs rhs => .plain .logical e none :: (ofExpr lhs ++ ofExpr rhs)
  | .var target => [ofVar target]
  | .assign target value => .reference .assign e none target.link :: ofExpr value
  | .call callee args _ => .plain .call e none :: (ofExpr callee ++ args.flatMap ofExpr)
  | .get object _ => .plain .get e none :: ofExpr object
  | .set object _ value => .plain .set e none :: (ofExpr object ++ ofExpr value)
  | .this target => [.reference .this e (some "<THIS>") target.link]
  | .super target _ => [.reference .super e none target.link]

/-- The outline of an expression that may be missing. -/
def ofExpr? : Option (Expr ρ) → List (Entry ρ)
  | none => []
  | some e => ofExpr e

mutual

/-- The outline of a statement. -/
def ofStmt : Stmt ρ → List (Entry ρ)
  | .expression e => .statement .expressionStmt none :: ofExpr e
  | .print e => .statement .printStmt none :: ofExpr e
  | .var _ initializer => .statement .varDecl none :: ofExpr? initializer
  | .block body => .statement .block none :: body.flatMap ofStmt
  | .ifThen condition thenPart =>
    .statement .ifStmt none :: (ofExpr condition ++ ofStmt thenPart)
  | .ifElse condition thenPart elsePart =>
    .statement .ifStmt none :: (ofExpr condition ++ ofStmt thenPart ++ ofStmt elsePart)
  | .whileDo condition body => .statement .whileStmt none :: (ofExpr condition ++ ofStmt body)
  | .function f => ofFunction f
  | .giveBack _ value => .statement .returnStmt none :: ofExpr? value
  | .classDecl name superclass methods =>
    .statement .classDecl (some ("<class " ++ name.text ++ ">")) ::
      (superclass.toList.map ofVar ++ methods.flatMap ofFunction)

/-- The outline of a function. -/
def ofFunction : Function ρ → List (Entry ρ)
  | .mk name params body =>
    .statement .functionDecl (some (Function.mk name params body).description) ::
      body.flatMap ofStmt

end

/-- The outline of a program. -/
def ofStmts (stmts : List (Stmt ρ)) : List (Entry ρ) :=
  stmts.flatMap ofStmt

/-- The references of a program that lead to a local declaration, with the number of scopes that
they leave. -/
def locals (stmts : List (Stmt Link)) : List (Entry Link × Nat) :=
  (ofStmts stmts).filterMap fun entry => entry.link.join.map fun hops => (entry, hops)

end Entry

end LoxKit
