import LoxKit.Bindings
import LoxKit.Issue
import LoxKit.Syntax.Basic

/-!
# Scopes

The local scopes that are open at a place of a program, the innermost first. A scope says of each
name declared in it so far whether the declaration is complete. The globals are in no scope.

Headlines:
* `Scopes.length_declare`, `Scopes.length_define`: declaring a name opens and closes no scope.
* `Scopes.hops?_eq_none_iff`: a name leads to no scope exactly if none of them declares it.
-/

namespace LoxKit

/-- One scope: its names, and whether their declarations are complete. -/
abbrev Scope := Bindings Bool

/-- The scopes that are open, the innermost first. -/
abbrev Scopes := List Scope

/-- A scope that declares one name, completely. -/
def Scope.single (name : String) : Scope :=
  Bindings.empty.set name true

namespace Scopes

/-- Starts the declaration of a name in the innermost scope. A second declaration is an issue. -/
def declare (scopes : Scopes) (name : Name) : Scopes × List Issue :=
  match scopes with
  | [] => ([], [])
  | scope :: outer =>
    let issues :=
      if scope.contains name.text then [Issue.atLexeme name.pos name.text .alreadyDeclared] else []
    (scope.set name.text false :: outer, issues)

/-- Completes the declaration of a name in the innermost scope. -/
def define (scopes : Scopes) (name : Name) : Scopes :=
  match scopes with
  | [] => []
  | scope :: outer => scope.set name.text true :: outer

/-- Declares a name completely. -/
def introduce (scopes : Scopes) (name : Name) : Scopes × List Issue :=
  let (declared, issues) := scopes.declare name
  (declared.define name, issues)

/-- Declares names completely, one after the other. -/
def introduceAll (scopes : Scopes) : List Name → Scopes × List Issue
  | [] => (scopes, [])
  | name :: names =>
    let (one, issues) := scopes.introduce name
    let (all, more) := introduceAll one names
    (all, issues ++ more)

/-- How many scopes lie between the innermost one and the nearest that declares a name. -/
def hops? (scopes : Scopes) (name : String) : Link :=
  scopes.findIdx? (·.contains name)

/-- Whether the innermost scope declares a name, but not completely. -/
def isPending (scopes : Scopes) (name : String) : Bool :=
  scopes.head?.any fun scope => scope.get? name == some false

theorem length_declare (scopes : Scopes) (name : Name) :
    (scopes.declare name).1.length = scopes.length := by
  cases scopes <;> simp [declare]

theorem length_define (scopes : Scopes) (name : Name) :
    (scopes.define name).length = scopes.length := by
  cases scopes <;> simp [define]

theorem length_introduce (scopes : Scopes) (name : Name) :
    (scopes.introduce name).1.length = scopes.length := by
  simp [introduce, length_define, length_declare]

/-- A name leads to no scope exactly if none of them declares it. -/
theorem hops?_eq_none_iff {scopes : Scopes} {name : String} :
    scopes.hops? name = none ↔ ∀ scope ∈ scopes, scope.contains name = false := by
  simp [hops?, List.findIdx?_eq_none_iff]

end Scopes

end LoxKit
