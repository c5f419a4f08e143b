import LoxKit.Token.Basic

/-!
# Syntax trees

The trees of expressions and statements. A tree is parametrised by what is known about its
references, the places where it names a variable, `this` or `super`: nothing after reading
(`Unit`), and after scopes have been resolved the number of scopes between the reference and its
declaration, or nothing for a global (`Option Nat`).

There is no tree for a for loop: it is written with blocks and a while loop.

Headlines:
* `Expr.anchor`: the token that an error in an expression is reported at.
* `Expr.erase`, `Stmt.erase`: a tree without what is known about its references.
-/

namespace LoxKit

/-- A name in a text. -/
structure Name where
  text : String
  pos : Pos
  deriving Repr, DecidableEq

/-- A place where a tree refers to a declaration, and what is known about it. -/
structure Reference (ρ : Type) where
  name : Name
  link : ρ
  deriving Repr, DecidableEq

/-- What is known about a reference once scopes are resolved: the number of scopes to leave, or
nothing for a name that is looked for among the globals. -/
abbrev Link := Option Nat

/-- Operators before one operand. -/
inductive UnaryOp where
  | not
  | negate
  deriving Repr, DecidableEq

/-- Operators between two operands that are both evaluated. -/
inductive BinaryOp where
  | equal | notEqual | greater | greaterEqual | less | lessEqual | minus | plus | divide | times
  deriving Repr, DecidableEq

/-- Operators that evaluate their right operand only if they need it. -/
inductive LogicalOp where
  | and
  | or
  deriving Repr, DecidableEq

/-- The symbol of an operator before one operand. -/
def UnaryOp.symbol : UnaryOp → Symbol
  | not => .bang
  | negate => .minus

/-- The symbol of an operator between two operands. -/
def BinaryOp.symbol : BinaryOp → Symbol
  | equal => .equalEqual
  | notEqual => .bangEqual
  | greater => .greater
  | greaterEqual => .greaterEqual
  | less => .less
  | lessEqual => .lessEqual
  | minus => .minus
  | plus => .plus
  | divide => .slash
  | times => .star

/-- The keyword of an operator that may leave out its right operand. -/
def LogicalOp.keyword : LogicalOp → Keyword
  | and => .and
  | or => .or

/-- Expressions. An operator is kept with its place, a call with that of its closing parenthesis. -/
inductive Expr (ρ : Type) where
  | literal (value : Literal) (token : Token)
  | grouping (inner : Expr ρ)
  | unary (op : UnaryOp) (pos : Pos) (arg : Expr ρ)
  | binary (op : BinaryOp) (pos : Pos) (lhs rhs : Expr ρ)
  | logical (op : LogicalOp) (pos : Pos) (lhs rhs : Expr ρ)
  | var (target : Reference ρ)
  | assign (target : Reference ρ) (value : Expr ρ)
  | call (callee : Expr ρ) (args : List (Expr ρ)) (paren : Pos)
  | get (object : Expr ρ) (field : Name)
  | set (object : Expr ρ) (field : Name) (value : Expr ρ)
  | this (target : Reference ρ)
  | super (target : Reference ρ) (method : Name)

mutual

/-- Statements. -/
inductive Stmt (ρ : Type) where
  | expression (e : Expr ρ)
  | print (e : Expr ρ)
  | var (name : Name) (initializer : Option (Expr ρ))
  | block (body : List (Stmt ρ))
  | ifThen (condition : Expr ρ) (thenPart : Stmt ρ)
  | ifElse (condition : Expr ρ) (thenPart elsePart : Stmt ρ)
  | whileDo (condition : Expr ρ) (body : Stmt ρ)
  | function (f : Function ρ)
  | giveBack (keyword : Pos) (value : Option (Expr ρ))
  | classDecl (name : Name) (superclass : Option (Reference ρ)) (methods : List (Function ρ))

/-- The declaration of a function or a method. -/
inductive Function (ρ : Type) where
  | mk (name : Name) (params : List Name) (body : List (Stmt ρ))

end

namespace Function

variable {ρ : Type}

/-- What a function is called. -/
def name : Function ρ → Name
  | mk name _ _ => name

/-- The parameters of a function. -/
def params : Function ρ → List Name
  | mk _ params _ => params

/-- The statements of a function. -/
def body : Function ρ → List (Stmt ρ)
  | mk _ _ body => body

end Function

/-- The method name that makes a method an initializer. -/
def initName : String := "init"

/-- The token of a name. -/
def Name.token (n : Name) : Token :=
  ⟨.identifier, n.text, n.pos⟩

/-- The token of a symbol at a place. -/
def Symbol.token (s : Symbol) (pos : Pos) : Token :=
  ⟨.symbol s, s.text, pos⟩

/-- The token of a keyword at a place. -/
def Keyword.token (k : Keyword) (pos : Pos) : Token :=
  ⟨.keyword k, k.word, pos⟩

/-- The token that an error in an expression is reported at. -/
def Expr.anchor {ρ : Type} : Expr ρ → Token
  | literal _ token => token
  | grouping inner => inner.anchor
  | unary op pos _ => op.symbol.token pos
  | binary op pos _ _ => op.symbol.token pos
  | logical op pos _ _ => op.keyword.token pos
  | var target => target.name.token
  | assign target _ => target.name.token
  | call _ _ paren => Symbol.rightParen.token paren
  | get _ field => field.token
  | set _ field _ => field.token
  | this target => Keyword.this.token target.name.pos
  | super target _ => Keyword.super.token target.name.pos

/-- A reference about which nothing is known. -/
def Reference.erase {ρ : Type} (r : Reference ρ) : Reference Unit :=
  ⟨r.name, ()⟩

/-- An expression without what is known about its references. -/
def Expr.erase {ρ : Type} : Expr ρ → Expr Unit
  | literal value token => .literal value token
  | grouping inner => .grouping inner.erase
  | unary op pos arg => .unary op pos arg.erase
  | binary op pos lhs rhs => .binary op pos lhs.erase rhs.erase
  | logical op pos lhs rhs => .logical op pos lhs.erase rhs.erase
  | var target => .var target.erase
  | assign target value => .assign target.erase value.erase
  | call callee args paren => .call callee.erase (args.map erase) paren
  | get object field => .get object.erase field
  | set object field value => .set object.erase field value.erase
  | this target => .this target.erase
  | super target method => .super target.erase method

mutual

/-- A statement without what is known about its references. -/
def Stmt.erase {ρ : Type} : Stmt ρ → Stmt Unit
  | .expression e => .expression e.erase
  | .print e => .print e.erase
  | .var name initializer => .var name (initializer.map Expr.erase)
  | .block body => .block (body.map Stmt.erase)
  | .ifThen condition thenPart => .ifThen condition.erase thenPart.erase
  | .ifElse condition thenPart elsePart => .ifElse condition.erase thenPart.erase elsePart.erase
  | .whileDo condition body => .whileDo condition.erase body.erase
  | .function f => .function f.erase
  | .giveBack keyword value => .giveBack keyword (value.map Expr.erase)
  | .classDecl name superclass methods =>
    .classDecl name (superclass.map Reference.erase) (methods.map Function.erase)

/-- A function without what is known about its references. -/
def Function.erase {ρ : Type} : Function ρ → Function Unit
  | .mk name params body => .mk name params (body.map Stmt.erase)

end

theorem Function.erase_name {ρ : Type} (f : Function ρ) : f.erase.name = f.name := by
  obtain ⟨name, params, body⟩ := f
  rw [Function.erase]
  rfl

end LoxKit
