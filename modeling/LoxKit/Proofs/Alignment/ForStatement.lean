import LoxKit.Grammar.Statement
import LoxKit.Machine.Evaluation
import LoxKit.Scope.Linking

/-!
# For statements, read directly

What a for statement means without the loop that the parser makes of it: there is one scope for the
whole of it. The initializer runs once in this scope. As long as the condition is truthy there, where
an absent one is true, the body runs, and then, unless a return was reached, the increment is
evaluated in the same scope.

Headlines:
* `ForStatement.desugared`: the loop that the parser makes.
* `ForStatement.link`: all parts are linked in the one scope.
* `ForStatement.run`: how the statement runs.
-/

namespace LoxKit

open LoxKit.Action

/-- What follows is done unless a return was reached. -/
def Action.andThen (m next : Action Completion) : Action Completion := do
  match ← m with
  | .carryOn => next
  | .returned v => pure (.returned v)

/-- Rounds as long as a condition is truthy, so many at most. -/
def rounds (condition : Action Value) (round : Action Completion) : Nat → Action Completion
  | 0 => fun _ => .unfinished
  | fuel + 1 => do
    let v ← condition
    if v.truthy then round.andThen (rounds condition round fuel) else pure .carryOn

/-- A for statement. Each of its clauses may be absent. -/
structure ForStatement (ρ : Type) where
  keyword : Pos
  initializer : Option (Stmt ρ)
  condition : Option (Expr ρ)
  increment : Option (Expr ρ)
  body : Stmt ρ

namespace ForStatement

/-- The loop that the parser makes of it. -/
def desugared (f : ForStatement Unit) : Grammar.RawStmt :=
  Grammar.forLoop f.keyword f.initializer f.condition f.increment f.body

/-! ## Linking -/

section Linking

variable (around : Surroundings) (scopes : Scopes) (f : ForStatement Unit)

/-- The scopes behind the initializer. -/
def inside : Scopes :=
  f.initializer.elim (.empty :: scopes) fun st => (linkStmt around (.empty :: scopes) st).scopes

/-- All parts are linked in one scope, and behind the initializer. -/
def link : ForStatement Link where
  keyword := f.keyword
  initializer := f.initializer.map fun st => (linkStmt around (.empty :: scopes) st).tree
  condition := f.condition.map fun e => (linkExpr around (f.inside around scopes) e).tree
  increment := f.increment.map fun e => (linkExpr around (f.inside around scopes) e).tree
  body := (linkStmt around (f.inside around scopes) f.body).tree

end Linking

/-! ## Running -/

section Running

variable (h : Host) (fuel depth : Nat) (chain : Chain) (f : ForStatement Link)

/-- The initializer, if there is one. -/
def start : Action Completion :=
  f.initializer.elim (pure .carryOn) fun st => execute h fuel depth chain st

/-- The condition. An absent one is true. -/
def test : Action Value :=
  f.condition.elim (pure (.bool true)) fun e => evaluate h fuel depth chain e

/-- The increment, if there is one. -/
def step : Action Completion :=
  f.increment.elim (pure .carryOn) fun e => do
    let _ ← (evaluate h fuel depth chain e : Action Value)
    pure .carryOn

/-- One round: the body and, unless it returns, the increment. -/
def round : Action Completion :=
  Action.andThen (execute h fuel depth chain f.body) (f.step h fuel depth chain)

/-- The statement: all of it runs in one new frame. -/
def run : Action Completion := do
  let frame ← newFrame .empty
  Action.andThen (f.start h fuel depth (frame :: chain))
    (rounds (f.test h fuel depth (frame :: chain)) (f.round h fuel depth (frame :: chain)) fuel)

end Running

end ForStatement

end LoxKit
