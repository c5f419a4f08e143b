import LoxKit.Machine.Evaluation
import LoxKit.Proofs.Syntax.Node

/-!
# The moments of a run

A run is made of smaller ones: a node runs its parts, a call runs the body of a function. A moment
is the beginning of one of these, with the chain and the store that it finds. `Calls` says which
moments a moment leads to directly. Its premises are the results of what ran before, so that it
holds of the moments that a run comes to, also of one that fails later or never ends.

Headlines:
* `Stage`: the stores in which the parts of a node begin.
* `Calls`: which moments lead to which.
-/

namespace LoxKit

/-- What a node that is done gives. -/
inductive Answer where
  | value (v : Value)
  | values (vs : List Value)
  | completion (c : Completion)

namespace Outcome

variable {α β : Type}

/-- The same end with another value. -/
def map (f : α → β) : Outcome α → Outcome β
  | done a s => .done (f a) s
  | failed error line s => .failed error line s
  | broken breakage => .broken breakage
  | unfinished => .unfinished

end Outcome

/-- The store that an action leaves if it is done or fails. -/
def Outcome.store? {α : Type} : Outcome α → Option Store
  | .done _ s | .failed _ _ s => some s
  | .broken _ | .unfinished => none

theorem Outcome.store?_map {α β : Type} (f : α → β) (o : Outcome α) :
    (o.map f).store? = o.store? := by
  cases o <;> rfl

namespace Node

/-- How a node runs. -/
def run (h : Host) (n : Node Link) (fuel depth : Nat) (chain : Chain) (s : Store) :
    Outcome Answer :=
  match n with
  | .expr e => (evaluate h fuel depth chain e s).map .value
  | .exprs es => (evaluateAll h fuel depth chain es s).map .values
  | .stmt st => (execute h fuel depth chain st s).map .completion
  | .stmts sts => (executeAll h fuel depth chain sts s).map .completion
  | .loop condition body => (repeatWhile h fuel depth chain condition body s).map .completion
  | .function _ | .method _ => .unfinished

/-- The part of a node that runs when one of them has given its result, if any does. -/
def next? (n : Node Link) (i : Nat) (r : Answer) : Option Nat :=
  match n, i, r with
  | .expr (.binary ..), 0, .value _ => some 1
  | .expr (.logical op _ _ _), 0, .value v => if op.decides v then none else some 1
  | .expr (.call ..), 0, .value _ => some 1
  | .expr (.set ..), 0, .value (.object _) => some 1
  | .exprs _, 0, .value _ => some 1
  | .stmt (.ifThen ..), 0, .value v => if v.truthy then some 1 else none
  | .stmt (.ifElse ..), 0, .value v => if v.truthy then some 1 else some 2
  | .stmts _, 0, .completion .carryOn => some 1
  | .loop _ _, 0, .value v => if v.truthy then some 1 else none
  | .loop _ _, 1, .completion .carryOn => some 2
  | _, _, _ => none

end Node

/-- The `i`-th part of a node begins in a store. -/
inductive Stage (h : Host) (n : Node Link) (fuel depth : Nat) (chain : Chain) (s : Store) :
    (i : Nat) → Store → Prop
  | first : Stage h n fuel depth chain s 0 s
  | next {i j : Nat} {n' : Node Link} {r : Answer} {s₁ s₂ : Store}
      (hi : Stage h n fuel depth chain s i s₁) (hn : n.part i = some n')
      (hr : n'.run h fuel depth chain s₁ = .done r s₂) (hj : n.next? i r = some j) :
      Stage h n fuel depth chain s j s₂

/-- The beginning of something that runs. -/
inductive Moment where
  /-- A node begins to run. -/
  | run (n : Node Link) (fuel depth : Nat) (chain : Chain) (s : Store)
  /-- A value is applied to arguments of the right number. -/
  | apply (f : Value) (args : List Value) (fuel depth : Nat) (s : Store)
  /-- A function is called. -/
  | invoke (c : Closure) (args : List Value) (fuel depth : Nat) (s : Store)
  /-- A method is made for an object. -/
  | bind (c : Closure) (o : Object) (s : Store)

/-- The store that a moment finds. -/
def Moment.store : Moment → Store
  | run _ _ _ _ s | apply _ _ _ _ s | invoke _ _ _ _ s | bind _ _ s => s

/-- The store that is left when what begins in a moment is done or fails. -/
def Moment.leaves? (h : Host) : Moment → Option Store
  | .run n fuel depth chain s => (n.run h fuel depth chain s).store?
  | .apply f args fuel depth s => (LoxKit.apply h fuel depth f args s).store?
  | .invoke c args fuel depth s => (LoxKit.invoke h fuel depth c args s).store?
  | .bind c o s => (Action.bindMethod c o s).store?

/-- Which moments a moment leads to directly. -/
inductive Calls (h : Host) : Moment → Moment → Prop
  | part {n n' : Node Link} {fuel depth i : Nat} {chain : Chain} {s s' : Store}
      (hs : Stage h n fuel depth chain s i s') (hn : n.part i = some n') :
      Calls h (.run n (fuel + 1) depth chain s) (.run n' fuel depth chain s')
  | block {body : List (Stmt Link)} {fuel depth : Nat} {chain : Chain} {s : Store} :
      Calls h (.run (.stmt (.block body)) (fuel + 1) depth chain s)
        (.run (.stmts body) fuel depth (s.frames.size :: chain)
          { s with frames := s.frames.push .empty })
  | get {object : Expr Link} {field : Name} {fuel depth : Nat} {chain : Chain} {s s₁ : Store}
      {o : Object} {c : Closure} (ho : evaluate h fuel depth chain object s = .done (.object o) s₁)
      (hf : (Action.fields s₁ o).get? field.text = none)
      (hc : o.ofClass.findMethod? field.text = some c) :
      Calls h (.run (.expr (.get object field)) (fuel + 1) depth chain s) (.bind c o s₁)
  | super {target : Reference Link} {method : Name} {fuel depth hops : Nat} {chain : Chain}
      {s : Store} {k : ClassValue} {o : Object} {c : Closure} (ht : target.link = some hops)
      (hk : s.frames.getAt chain hops Keyword.super.word = .ok (.ofClass k))
      (ho : s.frames.getAt chain (hops - 1) Keyword.this.word = .ok (.object o))
      (hc : k.findMethod? method.text = some c) :
      Calls h (.run (.expr (.super target method)) (fuel + 1) depth chain s) (.bind c o s)
  | call {callee : Expr Link} {args : List (Expr Link)} {paren : Pos} {fuel depth : Nat}
      {chain : Chain} {s s₁ s₂ : Store} {f : Value} {vs : List Value}
      (hf : evaluate h fuel depth chain callee s = .done f s₁)
      (ha : evaluateAll h fuel depth chain args s₁ = .done vs s₂)
      (hv : f.arity? = some vs.length) (hd : depth < h.callLimit) :
      Calls h (.run (.expr (.call callee args paren)) (fuel + 1) depth chain s)
        (.apply f vs fuel (depth + 1) s₂)
  | closure {c : Closure} {args : List Value} {fuel depth : Nat} {s : Store} :
      Calls h (.apply (.closure c) args (fuel + 1) depth s) (.invoke c args fuel depth s)
  | construct {k : ClassValue} {args : List Value} {fuel depth : Nat} {s : Store} {c : Closure}
      (hc : k.findMethod? initName = some c) :
      Calls h (.apply (.ofClass k) args (fuel + 1) depth s)
        (.bind c ⟨s.objects.size, k⟩ { s with objects := s.objects.push .empty })
  | initializer {k : ClassValue} {args : List Value} {fuel depth : Nat} {s s₁ : Store}
      {c c' : Closure} (hc : k.findMethod? initName = some c)
      (hb : Action.bindMethod c ⟨s.objects.size, k⟩
        { s with objects := s.objects.push .empty } = .done c' s₁) :
      Calls h (.apply (.ofClass k) args (fuel + 1) depth s) (.invoke c' args fuel depth s₁)
  | body {c : Closure} {args : List Value} {fuel depth : Nat} {s : Store} :
      Calls h (.invoke c args (fuel + 1) depth s)
        (.run (.stmts c.function.body) fuel depth (s.frames.size :: c.captured)
          { s with frames := s.frames.push (Action.parameterFrame c.function.params args) })

end LoxKit
