import LoxKit.Proofs.Relocation.Tree
import LoxKit.Proofs.Syntax.Term

/-!
# Outlines

The outline of a tree is all of it but the places of its tokens, and of a number the digits that it is
written with. It is what the writing of a tree is to show: each node of a tree is written as a term,
the words and the items of which are those of the outline.

Headlines:
* `Expr.outline`, `Stmt.outline`, `Function.outline`: outlines of trees.
* `Expr.term`, `Stmt.term`, `Function.term`: the terms that trees are written as.
* `Expr.text_term`, `Stmt.text_term`: trees are written so.
* `Expr.term_outline`, `Stmt.term_outline`: terms show outlines only.
-/

namespace LoxKit

/-! ## Outlines -/

/-- A literal as it is written: a number by its digits. -/
def Literal.outline : Literal → Literal
  | .number x => .string (Decimal.source.text x)
  | value => value

/-- A name without its place. -/
def Name.outline (n : Name) : Name :=
  n.move fun _ => .start

/-- A reference without its place. -/
def Reference.outline (r : Reference Unit) : Reference Unit :=
  r.move fun _ => .start

/-- An expression without the places of its tokens, and with its numbers as they are written. -/
def Expr.outline : Expr Unit → Expr Unit
  | .literal value token => .literal value.outline ⟨token.kind, value.render, .start⟩
  | .grouping inner => .grouping inner.outline
  | .unary op _ arg => .unary op .start arg.outline
  | .binary op _ lhs rhs => .binary op .start lhs.outline rhs.outline
  | .logical op _ lhs rhs => .logical op .start lhs.outline rhs.outline
  | .var target => .var target.outline
  | .assign target value => .assign target.outline value.outline
  | .call callee args _ => .call callee.outline (args.map Expr.outline) .start
  | .get object field => .get object.outline field.outline
  | .set object field value => .set object.outline field.outline value.outline
  | .this target => .this target.outline
  | .super target method => .super target.outline method.outline

mutual

/-- A statement without the places of its tokens, and with its numbers as they are written. -/
def Stmt.outline : Stmt Unit → Stmt Unit
  | .expression e => .expression e.outline
  | .print e => .print e.outline
  | .var name initializer => .var name.outline (initializer.map Expr.outline)
  | .block body => .block (body.map Stmt.outline)
  | .ifThen condition thenPart => .ifThen condition.outline thenPart.outline
  | .ifElse condition thenPart elsePart =>
    .ifElse condition.outline thenPart.outline elsePart.outline
  | .whileDo condition body => .whileDo condition.outline body.outline
  | .function f => .function f.outline
  | .giveBack _ value => .giveBack .start (value.map Expr.outline)
  | .classDecl name superclass methods =>
    .classDecl name.outline (superclass.map Reference.outline) (methods.map Function.outline)

/-- A function without the places of its tokens, and with its numbers as they are written. -/
def Function.outline : Function Unit → Function Unit
  | .mk name params body =>
    .mk name.outline (params.map Name.outline) (body.map Stmt.outline)

end

/-! ## Terms -/

/-- The term that a name is written as. -/
def Name.term (n : Name) : Term :=
  .word n.text

/-- The term that an expression is written as. -/
def Expr.term : Expr Unit → Term
  | .literal value _ => .word value.render
  | .grouping inner => .list [.word "group", inner.term]
  | .unary op _ arg => .list [.word op.symbol.text, arg.term]
  | .binary op _ lhs rhs => .list [.word op.symbol.text, lhs.term, rhs.term]
  | .logical op _ lhs rhs => .list [.word op.keyword.word, lhs.term, rhs.term]
  | .var target => target.name.term
  | .assign target value => .list [.word "=", target.name.term, value.term]
  | .call callee args _ => .list (.word "call" :: callee.term :: args.map Expr.term)
  | .get object field => .list [.word ".", object.term, field.term]
  | .set object field value => .list [.word "=", object.term, field.term, value.term]
  | .this _ => .word "this"
  | .super _ method => .list [.word "super", method.term]

/-- The terms that the head of a class is written as. -/
def classTerms (name : Name) : Option (Reference Unit) → List Term
  | none => [name.term]
  | some superclass => [name.term, .word "<", superclass.name.term]

mutual

/-- The term that a statement is written as. -/
def Stmt.term : Stmt Unit → Term
  | .expression e => .list [.word ";", e.term]
  | .print e => .list [.word "print", e.term]
  | .var name none => .list [.word "var", name.term]
  | .var name (some e) => .list [.word "var", name.term, .word "=", e.term]
  | .block body => .list (.word "block" :: body.map Stmt.term)
  | .ifThen condition thenPart => .list [.word "if", condition.term, thenPart.term]
  | .ifElse condition thenPart elsePart =>
    .list [.word "if-else", condition.term, thenPart.term, elsePart.term]
  | .whileDo condition body => .list [.word "while", condition.term, body.term]
  | .function f => f.term
  | .giveBack _ none => .list [.word "return"]
  | .giveBack _ (some e) => .list [.word "return", e.term]
  | .classDecl name superclass methods =>
    .list (.word "class" :: (classTerms name superclass ++ methods.map Function.term))

/-- The term that a function is written as. -/
def Function.term : Function Unit → Term
  | .mk name params body =>
    .list (.word "fun" :: name.term :: .list (params.map Name.term) :: body.map Stmt.term)

end

/-- An expression is written as its term. -/
theorem Expr.text_term (e : Expr Unit) : e.term.text = e.render := by
  fun_induction Expr.term e with
  | case8 callee args paren ih iha =>
    have hargs : args.map (Term.text ∘ term) = args.map render := List.map_congr_left iha
    simp only [Term.text, render, List.map_cons, ih, List.map_map, hargs]
  | _ => simp_all [Term.text, render, Name.term]

/-- The head of a class is written with spaces between its terms, as the items of a list are. -/
theorem text_classTerms (name : Name) (superclass : Option (Reference Unit)) (items : List Term) :
    (Term.list (.word "class" :: (classTerms name superclass ++ items))).text =
      parenthesized ("class" :: classHead name superclass :: items.map Term.text) := by
  cases superclass with
  | none => simp [Term.text, classTerms, classHead, Name.term]
  | some superclass =>
    have hless : " < " = " " ++ "<" ++ " " := rfl
    simp only [Term.text, classTerms, classHead, Name.term, List.cons_append, List.nil_append,
      List.map_cons, parenthesized, String.intercalate_cons_cons, String.intercalate_cons_append,
      hless, String.append_assoc]

mutual

/-- A statement is written as its term. -/
theorem Stmt.text_term (stmt : Stmt Unit) : stmt.term.text = stmt.render := by
  match stmt with
  | .expression e | .print e =>
    simp [Stmt.term, Stmt.render, Term.text, Expr.text_term]
  | .var name none => simp [Stmt.term, Stmt.render, Term.text, Name.term]
  | .giveBack _ none =>
    have hreturn : parenthesized ["return"] = "(return)" := by decide
    simp only [Stmt.term, Stmt.render, Term.text, List.map_cons, List.map_nil, hreturn]
  | .var name (some e) | .giveBack _ (some e) =>
    simp [Stmt.term, Stmt.render, Term.text, Expr.text_term, Name.term]
  | .block body =>
    have hbody : body.map (Term.text ∘ Stmt.term) = body.map Stmt.render :=
      List.map_congr_left fun x _ => Stmt.text_term x
    simp only [Stmt.term, Stmt.render, Term.text, List.map_cons, List.map_map, hbody]
  | .ifThen c t => simp [Stmt.term, Stmt.render, Term.text, Expr.text_term, Stmt.text_term t]
  | .ifElse c t e =>
    simp [Stmt.term, Stmt.render, Term.text, Expr.text_term, Stmt.text_term t, Stmt.text_term e]
  | .whileDo c b => simp [Stmt.term, Stmt.render, Term.text, Expr.text_term, Stmt.text_term b]
  | .function f => simp [Stmt.term, Stmt.render, Function.text_term f]
  | .classDecl name superclass methods =>
    have hmethods : methods.map (Term.text ∘ Function.term) = methods.map Function.render :=
      List.map_congr_left fun x _ => Function.text_term x
    rw [Stmt.term, text_classTerms, Stmt.render, List.map_map, hmethods]

/-- A function is written as its term. -/
theorem Function.text_term (f : Function Unit) : f.term.text = f.render := by
  match f with
  | .mk name params body =>
    have hbody : body.map (Term.text ∘ Stmt.term) = body.map Stmt.render :=
      List.map_congr_left fun x _ => Stmt.text_term x
    have hparams : params.map (Term.text ∘ Name.term) = params.map Name.text :=
      List.map_congr_left fun x _ => by simp [Name.term, Term.text]
    simp only [Function.term, Function.render, Term.text, Name.term, List.map_cons, List.map_map, hbody,
      hparams]

end

/-! ## What terms show -/

/-- The term of an expression shows its outline only. -/
theorem Expr.term_outline (e : Expr Unit) : e.outline.term = e.term := by
  fun_induction Expr.outline e with
  | case1 value token => cases value <;> simp [term, Literal.outline, Literal.render]
  | case8 callee args paren ih iha =>
    have hargs : args.map (term ∘ outline) = args.map term := List.map_congr_left iha
    simp only [term, ih, List.map_map, hargs]
  | _ => simp_all [term, Name.term, Name.outline, Reference.outline]

theorem classTerms_outline (name : Name) (superclass : Option (Reference Unit)) :
    classTerms name.outline (superclass.map Reference.outline) = classTerms name superclass := by
  cases superclass <;> rfl

mutual

/-- The term of a statement shows its outline only. -/
theorem Stmt.term_outline (stmt : Stmt Unit) : stmt.outline.term = stmt.term := by
  match stmt with
  | .expression e | .print e => simp [Stmt.outline, Stmt.term, Expr.term_outline]
  | .var name none | .giveBack _ none => simp [Stmt.outline, Stmt.term, Name.outline, Name.term]
  | .var name (some e) | .giveBack _ (some e) =>
    simp [Stmt.outline, Stmt.term, Expr.term_outline, Name.outline, Name.term]
  | .block body =>
    have hbody : body.map (Stmt.term ∘ Stmt.outline) = body.map Stmt.term :=
      List.map_congr_left fun x _ => Stmt.term_outline x
    simp only [Stmt.outline, Stmt.term, List.map_map, hbody]
  | .ifThen c t => simp [Stmt.outline, Stmt.term, Expr.term_outline, Stmt.term_outline t]
  | .ifElse c t e =>
    simp [Stmt.outline, Stmt.term, Expr.term_outline, Stmt.term_outline t, Stmt.term_outline e]
  | .whileDo c b => simp [Stmt.outline, Stmt.term, Expr.term_outline, Stmt.term_outline b]
  | .function f => simp [Stmt.outline, Stmt.term, Function.term_outline f]
  | .classDecl name superclass methods =>
    have hmethods : methods.map (Function.term ∘ Function.outline) = methods.map Function.term :=
      List.map_congr_left fun x _ => Function.term_outline x
    simp only [Stmt.outline, Stmt.term, classTerms_outline, List.map_map, hmethods]

/-- The term of a function shows its outline only. -/
theorem Function.term_outline (f : Function Unit) : f.outline.term = f.term := by
  match f with
  | .mk name params body =>
    have hbody : body.map (Stmt.term ∘ Stmt.outline) = body.map Stmt.term :=
      List.map_congr_left fun x _ => Stmt.term_outline x
    have hparams : params.map (Name.term ∘ Name.outline) = params.map Name.term :=
      List.map_congr_left fun x _ => rfl
    have hname : name.outline.term = name.term := rfl
    simp only [Function.outline, Function.term, List.map_map, hbody, hparams, hname]

end

end LoxKit
