import LoxKit.Syntax.Basic

/-!
# Syntax trees in writing

A tree is written with its head first, between parentheses: `(+ 1.0 (* 2.0 x))`. A literal stands
for itself, a string without quotes.

Headlines:
* `Expr.render_erase`, `Stmt.render_erase`: the writing does not show what is known about
  references.
-/

namespace LoxKit

/-- Words between parentheses. -/
def parenthesized (words : List String) : String :=
  "(" ++ String.intercalate " " words ++ ")"

/-- How the value of a literal is written. -/
def Literal.render : Literal → String
  | nil => "nil"
  | bool b => if b then "true" else "false"
  | number x => Decimal.source.text x
  | string s => s

/-- How an expression is written. -/
def Expr.render {ρ : Type} : Expr ρ → String
  | literal value _ => value.render
  | grouping inner => parenthesized ["group", inner.render]
  | unary op _ arg => parenthesized [op.symbol.text, arg.render]
  | binary op _ lhs rhs => parenthesized [op.symbol.text, lhs.render, rhs.render]
  | logical op _ lhs rhs => parenthesized [op.keyword.word, lhs.render, rhs.render]
  | var target => target.name.text
  | assign target value => parenthesized ["=", target.name.text, value.render]
  | call callee args _ => parenthesized ("call" :: callee.render :: args.map render)
  | get object field => parenthesized [".", object.render, field.text]
  | set object field value => parenthesized ["=", object.render, field.text, value.render]
  | this _ => "this"
  | super _ method => parenthesized ["super", method.text]

/-- How the head of a class is written. -/
def classHead {ρ : Type} (name : Name) : Option (Reference ρ) → String
  | none => name.text
  | some superclass => name.text ++ " < " ++ superclass.name.text

mutual

/-- How a statement is written. -/
def Stmt.render {ρ : Type} : Stmt ρ → String
  | .expression e => parenthesized [";", e.render]
  | .print e => parenthesized ["print", e.render]
  | .var name none => parenthesized ["var", name.text]
  | .var name (some e) => parenthesized ["var", name.text, "=", e.render]
  | .block body => parenthesized ("block" :: body.map Stmt.render)
  | .ifThen condition thenPart => parenthesized ["if", condition.render, thenPart.render]
  | .ifElse condition thenPart elsePart =>
    parenthesized ["if-else", condition.render, thenPart.render, elsePart.render]
  | .whileDo condition body => parenthesized ["while", condition.render, body.render]
  | .function f => f.render
  | .giveBack _ none => "(return)"
  | .giveBack _ (some e) => parenthesized ["return", e.render]
  | .classDecl name superclass methods =>
    parenthesized ("class" :: classHead name superclass :: methods.map Function.render)

/-- How a function is written. -/
def Function.render {ρ : Type} : Function ρ → String
  | .mk name params body =>
    parenthesized ("fun" :: name.text :: parenthesized (params.map Name.text) ::
      body.map Stmt.render)

end

/-- The writing of an expression does not show what is known about references. -/
theorem Expr.render_erase {ρ : Type} (e : Expr ρ) : e.erase.render = e.render := by
  fun_induction Expr.erase e with
  | case8 callee args paren ih iha =>
    have hargs : args.map (render ∘ erase) = args.map render := List.map_congr_left iha
    simp only [render, ih, List.map_map, hargs]
  | _ => simp_all [render, Reference.erase]

theorem classHead_erase {ρ : Type} (name : Name) (superclass : Option (Reference ρ)) :
    classHead name (superclass.map Reference.erase) = classHead name superclass := by
  cases superclass <;> rfl

mutual

/-- The writing of a statement does not show what is known about references. -/
theorem Stmt.render_erase {ρ : Type} (s : Stmt ρ) : s.erase.render = s.render := by
  match s with
  | .expression e | .print e => simp [Stmt.erase, Stmt.render, Expr.render_erase]
  | .var name none | .giveBack _ none => simp [Stmt.erase, Stmt.render]
  | .var name (some e) | .giveBack _ (some e) => simp [Stmt.erase, Stmt.render, Expr.render_erase]
  | .block body =>
    have hbody : body.map (Stmt.render ∘ Stmt.erase) = body.map Stmt.render :=
      List.map_congr_left fun x _ => Stmt.render_erase x
    simp only [Stmt.erase, Stmt.render, List.map_map, hbody]
  | .ifThen c t => simp [Stmt.erase, Stmt.render, Expr.render_erase, Stmt.render_erase t]
  | .ifElse c t e =>
    simp [Stmt.erase, Stmt.render, Expr.render_erase, Stmt.render_erase t, Stmt.render_erase e]
  | .whileDo c b => simp [Stmt.erase, Stmt.render, Expr.render_erase, Stmt.render_erase b]
  | .function f => simp [Stmt.erase, Stmt.render, Function.render_erase f]
  | .classDecl name superclass methods =>
    have hmethods : methods.map (Function.render ∘ Function.erase) = methods.map Function.render :=
      List.map_congr_left fun x _ => Function.render_erase x
    simp only [Stmt.erase, Stmt.render, List.map_map, classHead_erase, hmethods]

/-- The writing of a function does not show what is known about references. -/
theorem Function.render_erase {ρ : Type} (f : Function ρ) : f.erase.render = f.render := by
  match f with
  | .mk name params body =>
    have hbody : body.map (Stmt.render ∘ Stmt.erase) = body.map Stmt.render :=
      List.map_congr_left fun x _ => Stmt.render_erase x
    simp only [Function.erase, Function.render, List.map_map, hbody]

end

end LoxKit
