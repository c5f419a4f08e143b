import LoxKit.Proofs.Syntax.Node

/-!
# Renaming a local variable

A variable or parameter of a local scope gets another name, and with it go the references that are
linked to its scope and have its name. Since a link counts scopes, it is enough to know of each
scope around a place whether it is the one of the variable: the flags, from the inside to the
outside. No link changes.

Headlines:
* `Stmt.locals`: the variables and parameters of the local scopes in a statement.
* `renameLocal`: a program in which one of them has another name.
-/

namespace LoxKit

variable {α : Type}

/-! ## Names -/

/-- The names in an expression. -/
def Expr.names : Expr α → List String
  | .literal _ _ => []
  | .grouping inner => inner.names
  | .unary _ _ arg => arg.names
  | .binary _ _ lhs rhs => lhs.names ++ rhs.names
  | .logical _ _ lhs rhs => lhs.names ++ rhs.names
  | .var target => [target.name.text]
  | .assign target value => target.name.text :: value.names
  | .call callee args _ => callee.names ++ args.flatMap names
  | .get object field => field.text :: object.names
  | .set object field value => field.text :: (object.names ++ value.names)
  | .this target => [target.name.text]
  | .super target method => [target.name.text, method.text]

mutual

/-- The names in a statement. -/
def Stmt.names : Stmt α → List String
  | .expression e => e.names
  | .print e => e.names
  | .var name initializer => name.text :: initializer.toList.flatMap Expr.names
  | .block body => body.flatMap Stmt.names
  | .ifThen condition thenPart => condition.names ++ thenPart.names
  | .ifElse condition thenPart elsePart => condition.names ++ thenPart.names ++ elsePart.names
  | .whileDo condition body => condition.names ++ body.names
  | .function f => f.names
  | .giveBack _ value => value.toList.flatMap Expr.names
  | .classDecl name superclass methods =>
    name.text :: superclass.toList.map (·.name.text) ++ methods.flatMap Function.names

/-- The names in a function. -/
def Function.names : Function α → List String
  | .mk name params body => name.text :: params.map Name.text ++ body.flatMap Stmt.names

end

/-! ## Local variables -/

/-- The variable that a statement declares, if it declares one. -/
def Stmt.declaredVar? : Stmt α → Option Name
  | .var name _ => some name
  | _ => none

mutual

/-- The variables and parameters of the local scopes in a statement. -/
def Stmt.locals : Stmt α → List Name
  | .block body => body.filterMap Stmt.declaredVar? ++ body.flatMap Stmt.locals
  | .ifThen _ thenPart => thenPart.locals
  | .ifElse _ thenPart elsePart => thenPart.locals ++ elsePart.locals
  | .whileDo _ body => body.locals
  | .function f => f.locals
  | .classDecl _ _ methods => methods.flatMap Function.locals
  | .expression _ | .print _ | .var _ _ | .giveBack _ _ => []

/-- The variables and parameters of the local scopes in a function. -/
def Function.locals : Function α → List Name
  | .mk _ params body =>
    params ++ body.filterMap Stmt.declaredVar? ++ body.flatMap Stmt.locals

end

/-! ## Renaming -/

/-- Changes a name if a flag is set. -/
def Name.renameIf (ρ : String → String) (flag : Bool) (name : Name) : Name :=
  if flag then { name with text := ρ name.text } else name

/-- Whether a link leads to a scope with a flag. -/
def Link.flagged (flags : List Bool) (link : Link) : Bool :=
  link.any fun d => flags.getD d false

/-- Changes the name of a reference to a scope with a flag. -/
def Reference.rename (ρ : String → String) (flags : List Bool) (r : Reference Link) :
    Reference Link :=
  { r with name := r.name.renameIf ρ (Link.flagged flags r.link) }

/-- Changes the names of the variables in an expression that belong to scopes with a flag. -/
def Expr.rename (ρ : String → String) (flags : List Bool) : Expr Link → Expr Link
  | .literal value token => .literal value token
  | .grouping inner => .grouping (inner.rename ρ flags)
  | .unary op pos arg => .unary op pos (arg.rename ρ flags)
  | .binary op pos lhs rhs => .binary op pos (lhs.rename ρ flags) (rhs.rename ρ flags)
  | .logical op pos lhs rhs => .logical op pos (lhs.rename ρ flags) (rhs.rename ρ flags)
  | .var target => .var (target.rename ρ flags)
  | .assign target value => .assign (target.rename ρ flags) (value.rename ρ flags)
  | .call callee args paren => .call (callee.rename ρ flags) (args.map (Expr.rename ρ flags)) paren
  | .get object field => .get (object.rename ρ flags) field
  | .set object field value => .set (object.rename ρ flags) field (value.rename ρ flags)
  | .this target => .this target
  | .super target method => .super target method

/-- Puts one name in the place of another. -/
def replaceName (old new name : String) : String :=
  if name = old then new else name

/-- Gives one declared name another text. -/
def Name.replace (target : Name) (new : String) (name : Name) : Name :=
  if name = target then { name with text := new } else name

mutual

/-- Gives the target another name, and with it the references to it. The flags say which of the
scopes around the statement declares it, and a scope inside has a flag if it does. -/
def Stmt.rename (target : Name) (new : String) (flags : List Bool) : Stmt Link → Stmt Link
  | .expression e => .expression (e.rename (replaceName target.text new) flags)
  | .print e => .print (e.rename (replaceName target.text new) flags)
  | .var name initializer =>
    .var (if flags.getD 0 false then Name.replace target new name else name)
      (initializer.map (Expr.rename (replaceName target.text new) flags))
  | .block body =>
    .block (body.map (Stmt.rename target new
      (decide (target ∈ body.filterMap Stmt.declaredVar?) :: flags)))
  | .ifThen condition thenPart =>
    .ifThen (condition.rename (replaceName target.text new) flags) (thenPart.rename target new flags)
  | .ifElse condition thenPart elsePart =>
    .ifElse (condition.rename (replaceName target.text new) flags) (thenPart.rename target new flags)
      (elsePart.rename target new flags)
  | .whileDo condition body =>
    .whileDo (condition.rename (replaceName target.text new) flags) (body.rename target new flags)
  | .function f => .function (f.rename target new flags)
  | .giveBack keyword value =>
    .giveBack keyword (value.map (Expr.rename (replaceName target.text new) flags))
  | .classDecl name superclass methods =>
    .classDecl name (superclass.map (Reference.rename (replaceName target.text new) flags))
      (methods.map (Function.rename target new
        (false :: if superclass.isSome then false :: flags else flags)))

/-- Gives the target another name in a function. -/
def Function.rename (target : Name) (new : String) (flags : List Bool) :
    Function Link → Function Link
  | .mk name params body =>
    .mk name (params.map (Name.replace target new)) (body.map (Stmt.rename target new
      (decide (target ∈ params ++ body.filterMap Stmt.declaredVar?) :: flags)))

end

/-- A linked program in which a local variable or parameter has another name, and so have the
references that are linked to it. -/
def renameLocal (target : Name) (new : String) (program : List (Stmt Link)) : List (Stmt Link) :=
  program.map (Stmt.rename target new [])

end LoxKit
