import LoxKit.Proofs.Scope.Place

/-!
# Sites

A site is a place of a program that the rules of scoping can be about: a name that is declared, a
variable that is read or assigned, a `this`, a `super`, the name of a superclass, or a `return`.
With it go the constructs that enclose it, the innermost first, and the names that each of them has
declared before the site. Nothing of this needs linking: the sites of a program are listed by
recursion on its trees, in the order in which a reader would come to them.

Headlines:
* `Stmt.sites`, `sites`: the sites of a statement in its context, and those of a program.
* `Context.routine?`, `Context.method?`: the innermost function or method, and the innermost method.
* `Mirrors`: what linking carries along at a place with a given context.
* `Mirrors.declare`, `Mirrors.block`, `Mirrors.function_start`, `Mirrors.method_start`: it stays so
  behind a declaration and on the way into a construct.
-/

namespace LoxKit

/-! ## Contexts -/

/-- What opens a scope of its own. -/
inductive Construct where
  | block
  | function
  /-- A method of this name, in a class that has a superclass or not. -/
  | method (name : String) (inherits : Bool)
  deriving Repr, DecidableEq

/-- Whether a construct can be returned from. -/
def Construct.isRoutine : Construct → Bool
  | block => false
  | function | method _ _ => true

/-- Whether a construct belongs to a class. -/
def Construct.isMethod : Construct → Bool
  | block | function => false
  | method _ _ => true

/-- A construct around a site, and the names that it has declared before the site. Parameters are
declared by the function or method. -/
structure Enclosure where
  construct : Construct
  declared : List String
  deriving Repr, DecidableEq

/-- The constructs around a site, the innermost first. -/
abbrev Context := List Enclosure

namespace Context

/-- The constructs of a context. -/
def constructs (ctx : Context) : List Construct :=
  ctx.map Enclosure.construct

/-- The innermost function or method. -/
def routine? (ctx : Context) : Option Construct :=
  ctx.constructs.find? Construct.isRoutine

/-- The innermost method, which is one of the innermost class. -/
def method? (ctx : Context) : Option Construct :=
  ctx.constructs.find? Construct.isMethod

/-- Adds to the names that the innermost construct has declared. The globals are not followed. -/
def declare : Context → List String → Context
  | [], _ => []
  | e :: outer, names => { e with declared := e.declared ++ names } :: outer

theorem declare_nil (ctx : Context) : ctx.declare [] = ctx := by
  cases ctx with
  | nil => rfl
  | cons e outer => simp only [declare, List.append_nil]

theorem declare_append (ctx : Context) (first second : List String) :
    ctx.declare (first ++ second) = (ctx.declare first).declare second := by
  cases ctx with
  | nil => rfl
  | cons e outer => simp only [declare, List.append_assoc]

@[simp]
theorem constructs_declare (ctx : Context) (names : List String) :
    (ctx.declare names).constructs = ctx.constructs := by
  cases ctx <;> rfl

end Context

/-! ## Sites -/

/-- What stands at a site. -/
inductive Mention where
  | declaration (name : Name)
  | lookup (name : Name)
  | assignment (name : Name)
  | this (name : Name)
  | super (name : Name)
  /-- The name of the superclass of a class. -/
  | superclass (name subclass : Name)
  | giveBack (keyword : Pos) (hasValue : Bool)
  deriving Repr, DecidableEq

/-- Where the name or the keyword of a site is. -/
def Mention.pos : Mention → Pos
  | declaration name | lookup name | assignment name | this name | super name
  | superclass name _ => name.pos
  | giveBack keyword _ => keyword

/-- The name or the keyword of a site. -/
def Mention.text : Mention → String
  | declaration name | lookup name | assignment name | this name | super name
  | superclass name _ => name.text
  | giveBack _ _ => Keyword.return.word

/-- The kind of token that stands at a site. -/
def Mention.kind : Mention → Kind
  | declaration _ | lookup _ | assignment _ | superclass _ _ => .identifier
  | this _ => .keyword .this
  | super _ => .keyword .super
  | giveBack _ _ => .keyword .return

/-- A place that the rules of scoping can be about. -/
structure Site where
  context : Context
  /-- The variable whose initializer the site is in. -/
  initializing : Option Name
  mention : Mention
  deriving Repr, DecidableEq

/-- What an expression mentions. The value of a field comes before the object. -/
def Expr.mentions : Expr Unit → List Mention
  | .literal _ _ => []
  | .grouping inner => inner.mentions
  | .unary _ _ arg => arg.mentions
  | .binary _ _ lhs rhs => lhs.mentions ++ rhs.mentions
  | .logical _ _ lhs rhs => lhs.mentions ++ rhs.mentions
  | .var target => [.lookup target.name]
  | .assign target value => value.mentions ++ [.assignment target.name]
  | .call callee args _ => callee.mentions ++ args.flatMap mentions
  | .get object _ => object.mentions
  | .set object _ value => value.mentions ++ object.mentions
  | .this target => [.this target.name]
  | .super target _ => [.super target.name]

/-- The sites of an expression, which all have the context of the expression. -/
def Expr.sites (ctx : Context) (initializing : Option Name) (e : Expr Unit) : List Site :=
  e.mentions.map (Site.mk ctx initializing)

/-- The sites of an expression that may be missing. -/
def Expr.sites? (ctx : Context) (initializing : Option Name) : Option (Expr Unit) → List Site
  | none => []
  | some e => e.sites ctx initializing

/-- The sites of names that are declared one after the other. -/
def declarationSites (ctx : Context) : List Name → List Site
  | [] => []
  | name :: names =>
    ⟨ctx, none, .declaration name⟩ :: declarationSites (ctx.declare [name.text]) names

/-- The sites of the name of a superclass: it is a superclass, and it is read. -/
def superclassSites (ctx : Context) (subclass : Name) : Option (Reference Unit) → List Site
  | none => []
  | some r => [⟨ctx, none, .superclass r.name subclass⟩, ⟨ctx, none, .lookup r.name⟩]

/-- The names that a statement declares in the scope that it stands in, those of the statements that
it guards included. -/
def Stmt.introduces : Stmt Unit → List String
  | .ifThen _ thenPart => thenPart.introduces
  | .ifElse _ thenPart elsePart => thenPart.introduces ++ elsePart.introduces
  | .whileDo _ body => body.introduces
  | stmt => stmt.declares

mutual

/-- The sites of a statement in its context. -/
def Stmt.sites (ctx : Context) : Stmt Unit → List Site
  | .expression e => e.sites ctx none
  | .print e => e.sites ctx none
  | .var name initializer =>
    ⟨ctx, none, .declaration name⟩ ::
      Expr.sites? (ctx.declare [name.text]) (some name) initializer
  | .block body => Stmt.sitesOfAll (⟨.block, []⟩ :: ctx) body
  | .ifThen condition thenPart =>
    condition.sites ctx none ++ thenPart.sites ctx
  | .ifElse condition thenPart elsePart =>
    condition.sites ctx none ++ thenPart.sites ctx ++
      elsePart.sites (ctx.declare thenPart.introduces)
  | .whileDo condition body =>
    condition.sites ctx none ++ body.sites ctx
  | .function f =>
    ⟨ctx, none, .declaration f.name⟩ :: f.sites (ctx.declare [f.name.text]) .function
  | .giveBack keyword value =>
    ⟨ctx, none, .giveBack keyword value.isSome⟩ :: Expr.sites? ctx none value
  | .classDecl name superclass methods =>
    ⟨ctx, none, .declaration name⟩ ::
      superclassSites (ctx.declare [name.text]) name superclass ++
      methods.flatMap fun f =>
        f.sites (ctx.declare [name.text]) (.method f.name.text superclass.isSome)

/-- The sites of statements one after the other. -/
def Stmt.sitesOfAll (ctx : Context) : List (Stmt Unit) → List Site
  | [] => []
  | stmt :: stmts => stmt.sites ctx ++ Stmt.sitesOfAll (ctx.declare stmt.introduces) stmts

/-- The sites of a function or a method. Its parameters and its body share one scope. -/
def Function.sites (ctx : Context) (construct : Construct) : Function Unit → List Site
  | .mk _ params body =>
    declarationSites (⟨construct, []⟩ :: ctx) params ++
      Stmt.sitesOfAll (⟨construct, params.map Name.text⟩ :: ctx) body

end

/-- The sites of a program. -/
def sites (stmts : List (Stmt Unit)) : List Site :=
  Stmt.sitesOfAll [] stmts

/-! ## What linking knows at a site -/

/-- The names in the scopes of a construct: those that it declares and, for a method, `this` and
`super` if there is a superclass. -/
def Enclosure.scopes (e : Enclosure) : List (List String) :=
  match e.construct with
  | .block | .function => [e.declared]
  | .method _ false => [e.declared, [Keyword.this.word]]
  | .method _ true => [e.declared, [Keyword.this.word], [Keyword.super.word]]

namespace Context

/-- The names in the scopes that are open in a context. -/
def scopes (ctx : Context) : List (List String) :=
  ctx.flatMap Enclosure.scopes

theorem scopes_eq_cons (e : Enclosure) (ctx : Context) :
    ∃ outer, scopes (e :: ctx) = e.declared :: outer := by
  obtain ⟨construct, declared⟩ := e
  cases construct with
  | block | function => exact ⟨ctx.scopes, rfl⟩
  | method name inherits => cases inherits <;> exact ⟨_, rfl⟩

theorem scopes_declare (ctx : Context) (names : List String) :
    (ctx.declare names).scopes = Scopes.declareIn ctx.scopes names := by
  cases ctx with
  | nil => rfl
  | cons e outer =>
    obtain ⟨construct, declared⟩ := e
    cases construct with
    | block | function => rfl
    | method name inherits => cases inherits <;> rfl

/-- The kind of the innermost function or method. -/
def functionKind (ctx : Context) : FunctionKind :=
  match ctx.routine? with
  | none => .none
  | some (.method name _) => if name = initName then .initializer else .method
  | some _ => .function

/-- The kind of the innermost class. -/
def classKind (ctx : Context) : ClassKind :=
  match ctx.method? with
  | none => .none
  | some (.method _ true) => .subclass
  | some _ => .root

theorem functionKind_declare (ctx : Context) (names : List String) :
    (ctx.declare names).functionKind = ctx.functionKind := by
  simp only [functionKind, routine?, constructs_declare]

theorem classKind_declare (ctx : Context) (names : List String) :
    (ctx.declare names).classKind = ctx.classKind := by
  simp only [classKind, method?, constructs_declare]

end Context

open Scopes in
/-- What linking carries along belongs to a context: the scopes that are open declare the names of
the context, no declaration is under way, and the surroundings are the innermost function and
class. -/
structure Mirrors (around : Surroundings) (scopes : Scopes) (ctx : Context) : Prop where
  matched : Matches scopes ctx.scopes
  settled : Settled scopes
  function : around.function = ctx.functionKind
  enclosingClass : around.enclosingClass = ctx.classKind

namespace Mirrors

open Scopes

variable {around : Surroundings} {scopes : Scopes} {ctx : Context}

theorem topLevel : Mirrors .topLevel [] [] :=
  ⟨.nil, settled_nil, rfl, rfl⟩

/-- Behind the declaration of names. -/
theorem declare (h : Mirrors around scopes ctx) (names : List String) :
    Mirrors around (names.foldl Scopes.add scopes) (ctx.declare names) := by
  refine ⟨?_, h.settled.addAll, ?_, ?_⟩
  · rw [Context.scopes_declare]
    exact h.matched.addAll
  · rw [Context.functionKind_declare]
    exact h.function
  · rw [Context.classKind_declare]
    exact h.enclosingClass

/-- At the start of a block. -/
theorem block (h : Mirrors around scopes ctx) :
    Mirrors around (.empty :: scopes) (⟨.block, []⟩ :: ctx) :=
  ⟨.cons (fun n => by simp [Bindings.contains]) h.matched,
    settled_cons.mpr ⟨settled_empty, h.settled⟩, h.function, h.enclosingClass⟩

/-- At the start of a function. -/
theorem function_start (h : Mirrors around scopes ctx) :
    Mirrors { around with function := .function } (.empty :: scopes) (⟨.function, []⟩ :: ctx) :=
  ⟨.cons (fun n => by simp [Bindings.contains]) h.matched,
    settled_cons.mpr ⟨settled_empty, h.settled⟩, rfl, h.enclosingClass⟩

/-- At the start of a method. -/
theorem method_start (h : Mirrors around scopes ctx) (f : Function Unit) (inherits : Bool) :
    Mirrors { methodSurroundings around inherits with function := methodKind f }
      (.empty :: methodScopes scopes inherits) (⟨.method f.name.text inherits, []⟩ :: ctx) := by
  have hempty : ∀ n, Bindings.contains (.empty : Scope) n = true ↔ n ∈ ([] : List String) :=
    fun n => by simp [Bindings.contains]
  cases inherits with
  | false =>
    refine ⟨.cons hempty (.cons (contains_single _) h.matched),
      settled_cons.mpr ⟨settled_empty, settled_cons.mpr ⟨settled_single _, h.settled⟩⟩, rfl, rfl⟩
  | true =>
    refine ⟨.cons hempty (.cons (contains_single _) (.cons (contains_single _) h.matched)),
      settled_cons.mpr ⟨settled_empty, settled_cons.mpr ⟨settled_single _,
        settled_cons.mpr ⟨settled_single _, h.settled⟩⟩⟩, rfl, rfl⟩

end Mirrors

end LoxKit
