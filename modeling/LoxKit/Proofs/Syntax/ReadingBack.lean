import LoxKit.Proofs.Decimal.Numerals
import LoxKit.Proofs.Grammar.Material
import LoxKit.Proofs.Syntax.Outline
import LoxKit.Proofs.Syntax.Proper

/-!
# Reading terms back

The outline of a tree can be read back from the term that it is written as, if the tree is made of
tokens whose values show: names, keywords, and numbers that are written with digits. A word says by
its first character whether it is a name or a number, and a list says by its first item, and by how
many there are, what node it stands for.

Only what trees are written as is read back. What is read of other terms does not matter.

Headlines:
* `Token.Shows`: the tokens whose values show.
* `Term.expr`, `Term.stmt`: what is read of a term.
* **`Expr.MadeOf.read`**, **`Stmt.MadeOf.read`**: outlines are read back.
-/

namespace LoxKit

/-! ## What is read -/

namespace Term

/-- The name that a word is. -/
def name : Term → Name
  | word w => ⟨w, .start⟩
  | list _ => ⟨"", .start⟩

/-- The expression that a word stands for. Names begin with letters, numbers do not. -/
def wordExpr (w : String) : Expr Unit :=
  if w.toList.head?.any Piece.startsWord then
    match Keyword.ofWord? w with
    | some .nil => .literal .nil ⟨.keyword .nil, w, .start⟩
    | some .true => .literal (.bool true) ⟨.keyword .true, w, .start⟩
    | some .false => .literal (.bool false) ⟨.keyword .false, w, .start⟩
    | some .this => .this ⟨⟨w, .start⟩, ()⟩
    | _ => .var ⟨⟨w, .start⟩, ()⟩
  else .literal (.string w) ⟨.number, w, .start⟩

/-- The expression of an operator before one operand. -/
def unaryExpr (op : String) (arg : Expr Unit) : Expr Unit :=
  match op with
  | "!" => .unary .not .start arg
  | _ => .unary .negate .start arg

/-- The expression of an operator between two operands. -/
def binaryExpr (op : String) (lhs rhs : Expr Unit) : Expr Unit :=
  match op with
  | "==" => .binary .equal .start lhs rhs
  | "!=" => .binary .notEqual .start lhs rhs
  | ">" => .binary .greater .start lhs rhs
  | ">=" => .binary .greaterEqual .start lhs rhs
  | "<" => .binary .less .start lhs rhs
  | "<=" => .binary .lessEqual .start lhs rhs
  | "-" => .binary .minus .start lhs rhs
  | "+" => .binary .plus .start lhs rhs
  | "/" => .binary .divide .start lhs rhs
  | "*" => .binary .times .start lhs rhs
  | "and" => .logical .and .start lhs rhs
  | _ => .logical .or .start lhs rhs

/-- The expression that a list stands for, by its first item and the others, of which it is known
what is read of them. -/
def listExpr (head : String) (items : List (Term × Expr Unit)) : Expr Unit :=
  match head, items with
  | "group", [(_, inner)] => .grouping inner
  | "super", [(method, _)] => .super ⟨⟨"super", .start⟩, ()⟩ method.name
  | "call", (_, callee) :: args => .call callee (args.map Prod.snd) .start
  | ".", [(_, object), (field, _)] => .get object field.name
  | "=", [(target, _), (_, value)] => .assign ⟨target.name, ()⟩ value
  | "=", [(_, object), (field, _), (_, value)] => .set object field.name value
  | op, [(_, arg)] => unaryExpr op arg
  | op, [(_, lhs), (_, rhs)] => binaryExpr op lhs rhs
  | _, _ => wordExpr ""

/-- The expression that a term stands for. -/
def expr : Term → Expr Unit
  | word w => wordExpr w
  | list (word head :: items) => listExpr head (items.map fun t => (t, t.expr))
  | list _ => wordExpr ""

/-- The function that a statement declares, if it is the declaration of one. -/
def declared : Stmt Unit → Function Unit
  | .function f => f
  | _ => .mk ⟨"", .start⟩ [] []

/-- The names that the words of a list are. -/
def names : Term → List Name
  | list items => items.map name
  | word _ => []

/-- The statement that a list stands for, by its first item and the others, of which it is known what
is read of them. The superclass of a class is told from its methods by being a word. -/
def listStmt (head : String) (items : List (Term × Stmt Unit)) : Stmt Unit :=
  match head, items with
  | ";", [(e, _)] => .expression e.expr
  | "print", [(e, _)] => .print e.expr
  | "var", [(target, _)] => .var target.name none
  | "var", [(target, _), _, (e, _)] => .var target.name (some e.expr)
  | "if", [(condition, _), (_, thenPart)] => .ifThen condition.expr thenPart
  | "if-else", [(condition, _), (_, thenPart), (_, elsePart)] =>
    .ifElse condition.expr thenPart elsePart
  | "while", [(condition, _), (_, body)] => .whileDo condition.expr body
  | "fun", (function, _) :: (params, _) :: body =>
    .function (.mk function.name params.names (body.map Prod.snd))
  | "return", [] => .giveBack .start none
  | "return", [(e, _)] => .giveBack .start (some e.expr)
  | "class", (subclass, _) :: (word _, _) :: (superclass, _) :: methods =>
    .classDecl subclass.name (some ⟨superclass.name, ()⟩) (methods.map (declared ∘ Prod.snd))
  | "class", (subclass, _) :: methods =>
    .classDecl subclass.name none (methods.map (declared ∘ Prod.snd))
  | "block", body => .block (body.map Prod.snd)
  | _, _ => .block []

/-- The statement that a term stands for. -/
def stmt : Term → Stmt Unit
  | list (word head :: items) => listStmt head (items.map fun t => (t, t.stmt))
  | list _ | word _ => .block []

end Term

/-! ## Tokens whose values show -/

/-- A word that begins with a letter and goes on with letters and digits, and is no keyword. -/
def IsName (w : String) : Prop :=
  Plain w ∧ ∃ c chars, w.toList = c :: chars ∧ IsLetter c ∧ ∀ d ∈ chars, IsLetter d ∨ IsDigit d

open Decimal in
/-- A token whose value shows in writing: it is written as its kind says, and it is neither a string,
which may be written as anything else is, nor a number that is not written with digits. -/
structure Token.Shows (t : Token) : Prop where
  keyword : ∀ k, t.kind = .keyword k → t.lexeme = k.word
  name : t.kind = .identifier → IsName t.lexeme
  string : t.kind ≠ .string
  number : t.kind = .number → ∃ negative mantissa scale,
    Double.ofFloat (readNumeral t.lexeme.toList) = .finite negative mantissa scale

/-! ## Words -/

open Term (LegibleWord Ends)

theorem not_ends_of_word {c : Char} (h : IsLetter c ∨ IsDigit c) : ¬ Ends c := by
  rintro (rfl | rfl | rfl)
  all_goals
    unfold IsLetter IsDigit at h
    exact absurd h (by decide)

theorem not_ends_of_inNumber {c : Char} (h : Decimal.InNumber c) : ¬ Ends c := by
  rintro (rfl | rfl | rfl)
  all_goals
    unfold Decimal.InNumber at h
    exact absurd h (by decide)

theorem IsName.legible {w : String} (h : IsName w) : LegibleWord w := by
  obtain ⟨-, c, chars, hw, hc, hchars⟩ := h
  rw [LegibleWord, hw]
  exact ⟨List.cons_ne_nil _ _, List.forall_mem_cons.mpr
    ⟨not_ends_of_word (Or.inl hc), fun d hd => not_ends_of_word (hchars d hd)⟩⟩

theorem IsName.wordExpr {w : String} (h : IsName w) : Term.wordExpr w = .var ⟨⟨w, .start⟩, ()⟩ := by
  obtain ⟨hplain, c, chars, hw, hc, -⟩ := h
  have hplain' : Keyword.ofWord? w = none := hplain
  rw [Term.wordExpr, hw, List.head?_cons, Option.any_some, startsWord_iff.mpr hc, if_pos rfl, hplain']

/-- A number that is written with digits is a word that begins as no name does. -/
theorem legible_number {x : Float} {negative : Bool} {mantissa : Nat} {scale : Int}
    (h : Decimal.Double.ofFloat x = .finite negative mantissa scale) :
    LegibleWord (Decimal.source.text x) ∧ Term.wordExpr (Decimal.source.text x) =
      .literal (.string (Decimal.source.text x)) ⟨.number, Decimal.source.text x, .start⟩ := by
  obtain ⟨c, rest, hwrite, hc, hrest⟩ :=
    Decimal.writeDouble_finite Decimal.source negative mantissa scale
  have hw : (Decimal.source.text x).toList = c :: rest := by
    rw [Decimal.Style.text, h, hwrite, String.toList_ofList]
  have hfirst : Decimal.InNumber c := hc.imp_right fun hminus => by
    rw [hminus]
    decide
  have hletter : Piece.startsWord c = false := by
    refine Bool.eq_false_iff.mpr fun hstarts => ?_
    have hletter := startsWord_iff.mp hstarts
    rcases hc with hdigit | rfl
    · exact (Piece.plain_of_letter hletter).2.2.2.2.2 (isDigit_iff.mp hdigit)
    · exact absurd hletter (by unfold IsLetter; decide)
  refine ⟨?_, ?_⟩
  · rw [LegibleWord, hw]
    exact ⟨List.cons_ne_nil _ _, List.forall_mem_cons.mpr
      ⟨not_ends_of_inNumber hfirst, fun d hd => not_ends_of_inNumber (hrest d hd)⟩⟩
  · rw [Term.wordExpr, hw, List.head?_cons, Option.any_some, hletter]
    rfl

/-- The word of a literal is legible, and the literal is read back. -/
theorem Token.Shows.literal {t : Token} (h : t.Shows) {value : Literal}
    (hv : Grammar.literalOf? t = some value) :
    LegibleWord value.render ∧
      Term.wordExpr value.render = (Expr.literal value t).outline := by
  rw [Expr.outline]
  unfold Grammar.literalOf? at hv
  split at hv
  case h_1 hk | h_2 hk | h_3 hk =>
    cases hv
    rw [hk]
    exact ⟨by simp [LegibleWord, Ends, Literal.render], rfl⟩
  · unfold Token.literal? at hv
    split at hv
    · rename_i hk
      cases hv
      obtain ⟨negative, mantissa, scale, hfinite⟩ := h.number hk
      rw [hk]
      exact legible_number hfinite
    · rename_i hk
      exact absurd hk h.string
    · exact absurd hv (by simp)

theorem Name.Of.isName {n : Name} (h : n.Of Token.Shows .identifier) : IsName n.text := by
  obtain ⟨t, ht, hk, rfl⟩ := h
  exact ht.name hk

theorem Name.Of.text_eq {n : Name} {k : Keyword} (h : n.Of Token.Shows (.keyword k)) :
    n.text = k.word := by
  obtain ⟨t, ht, hk, rfl⟩ := h
  exact ht.keyword k hk

/-- The words that come first in lists, and those between their items, are legible. -/
theorem legible_head : ∀ w ∈ ["group", "super", "call", ".", "=", ";", "print", "var", "block", "if",
    "if-else", "while", "fun", "return", "class", "<"], LegibleWord w := by
  simp [LegibleWord, Ends]

theorem Keyword.legible (k : Keyword) : LegibleWord k.word := by
  cases k <;> simp [LegibleWord, Ends, word]

theorem UnaryOp.legible (op : UnaryOp) : LegibleWord op.symbol.text := by
  cases op <;> simp [LegibleWord, Ends, symbol, Symbol.text]

theorem BinaryOp.legible (op : BinaryOp) : LegibleWord op.symbol.text := by
  cases op <;> simp [LegibleWord, Ends, symbol, Symbol.text]

theorem Term.Legible.node {head : String} {items : List Term} (hhead : LegibleWord head)
    (h : ∀ t ∈ items, t.Legible) : (Term.list (.word head :: items)).Legible :=
  .list (List.forall_mem_cons.mpr ⟨.word hhead, h⟩)

theorem Term.forall_mem_pair {P : Term → Prop} {t u : Term} (ht : P t) (hu : P u) :
    ∀ v ∈ [t, u], P v :=
  List.forall_mem_cons.mpr ⟨ht, List.forall_mem_singleton.mpr hu⟩

theorem Name.Of.legible {n : Name} (h : n.Of Token.Shows .identifier) : n.term.Legible :=
  .word h.isName.legible

/-! ## Trees -/

/-- The outline of an expression is read back. -/
theorem Expr.MadeOf.read {e : Expr Unit} (h : e.MadeOf Token.Shows) : e.term.expr = e.outline := by
  induction h with
  | literal ht hv =>
    rw [Expr.term, Term.expr]
    exact (ht.literal hv).2
  | alwaysTrue pos =>
    rw [Grammar.alwaysTrue, Expr.term, Term.expr, Expr.outline]
    rfl
  | @grouping inner h ih =>
    rw [Expr.term, Term.expr]
    simp only [List.map_cons, List.map_nil, ih, Expr.outline]
    rfl
  | @unary arg op pos h ih =>
    rw [Expr.term, Term.expr]
    simp only [List.map_cons, List.map_nil, ih, Expr.outline]
    cases op <;> rfl
  | @binary lhs rhs op pos hl hr ihl ihr =>
    rw [Expr.term, Term.expr]
    simp only [List.map_cons, List.map_nil, ihl, ihr, Expr.outline]
    cases op <;> rfl
  | @logical lhs rhs op pos hl hr ihl ihr =>
    rw [Expr.term, Term.expr]
    simp only [List.map_cons, List.map_nil, ihl, ihr, Expr.outline]
    cases op <;> rfl
  | var h =>
    rw [Expr.term, Name.term, Term.expr, h.isName.wordExpr, Expr.outline]
    rfl
  | @assign target value h hv ih =>
    rw [Expr.term, Term.expr]
    simp only [List.map_cons, List.map_nil, ih, Expr.outline]
    rfl
  | @call callee args paren hc ha ihc iha =>
    rw [Expr.term, Term.expr]
    have hargs : args.map (Prod.snd ∘ (fun t => (t, t.expr)) ∘ Expr.term) = args.map Expr.outline :=
      List.map_congr_left iha
    simp only [List.map_cons, List.map_map, ihc, Expr.outline, Term.listExpr, hargs]
  | @get object field ho hf ih =>
    rw [Expr.term, Term.expr]
    simp only [List.map_cons, List.map_nil, ih, Expr.outline]
    rfl
  | @set object value field ho hf hv iho ihv =>
    rw [Expr.term, Term.expr]
    simp only [List.map_cons, List.map_nil, iho, ihv, Expr.outline]
    rfl
  | @this target h =>
    rw [Expr.term, Term.expr, Expr.outline, Reference.outline, Reference.move, Name.move, h.text_eq]
    rfl
  | @super target method h hm =>
    rw [Expr.term, Term.expr, Expr.outline, Reference.outline, Reference.move, Name.move, h.text_eq]
    rfl

/-- The term of an expression is legible. -/
theorem Expr.MadeOf.legible {e : Expr Unit} (h : e.MadeOf Token.Shows) : e.term.Legible := by
  induction h with
  | literal ht hv =>
    rw [Expr.term]
    exact .word (ht.literal hv).1
  | alwaysTrue pos =>
    rw [Grammar.alwaysTrue, Expr.term]
    exact .word (Keyword.legible .true)
  | grouping _ ih =>
    rw [Expr.term]
    exact .node (legible_head _ (by simp)) (List.forall_mem_singleton.mpr ih)
  | unary op _ _ ih =>
    rw [Expr.term]
    exact .node op.legible (List.forall_mem_singleton.mpr ih)
  | binary op _ _ _ ihl ihr =>
    rw [Expr.term]
    exact .node op.legible (Term.forall_mem_pair ihl ihr)
  | logical op _ _ _ ihl ihr =>
    rw [Expr.term]
    exact .node op.keyword.legible (Term.forall_mem_pair ihl ihr)
  | var h =>
    rw [Expr.term]
    exact h.legible
  | assign h _ ih =>
    rw [Expr.term]
    exact .node (legible_head _ (by simp)) (Term.forall_mem_pair h.legible ih)
  | call _ _ _ ihc iha =>
    rw [Expr.term]
    exact .node (legible_head _ (by simp))
      (List.forall_mem_cons.mpr ⟨ihc, List.forall_mem_map.mpr iha⟩)
  | get _ hf ih =>
    rw [Expr.term]
    exact .node (legible_head _ (by simp)) (Term.forall_mem_pair ih hf.legible)
  | set _ hf _ iho ihv =>
    rw [Expr.term]
    exact .node (legible_head _ (by simp))
      (List.forall_mem_cons.mpr ⟨iho, Term.forall_mem_pair hf.legible ihv⟩)
  | this h =>
    rw [Expr.term]
    exact .word (Keyword.legible .this)
  | super h hm =>
    rw [Expr.term]
    exact .node (legible_head _ (by simp)) (List.forall_mem_singleton.mpr hm.legible)

mutual

/-- The outline of a statement is read back. -/
theorem Stmt.MadeOf.read {stmt : Stmt Unit} (h : stmt.MadeOf Token.Shows) :
    stmt.term.stmt = stmt.outline := by
  match h with
  | .expression h | .print h =>
    rw [Stmt.term, Stmt.outline, ← h.read, Term.stmt]
    rfl
  | @Stmt.MadeOf.var _ name none hn hi =>
    rw [Stmt.term, Stmt.outline, Term.stmt]
    rfl
  | @Stmt.MadeOf.var _ name (some e) hn hi =>
    rw [Stmt.term, Stmt.outline, Option.map_some, ← (hi e rfl).read, Term.stmt]
    rfl
  | @Stmt.MadeOf.block _ body h =>
    have hbody : body.map (Prod.snd ∘ (fun t => (t, t.stmt)) ∘ Stmt.term) = body.map Stmt.outline :=
      List.map_congr_left fun stmt hstmt => Stmt.MadeOf.read (h stmt hstmt)
    rw [Stmt.term, Stmt.outline, ← hbody, Term.stmt, ← List.map_map, ← List.map_map]
    rfl
  | .ifThen hc ht =>
    rw [Stmt.term, Stmt.outline, ← hc.read, ← Stmt.MadeOf.read ht, Term.stmt]
    rfl
  | .ifElse hc ht he =>
    rw [Stmt.term, Stmt.outline, ← hc.read, ← Stmt.MadeOf.read ht, ← Stmt.MadeOf.read he, Term.stmt]
    rfl
  | .whileDo hc hb =>
    rw [Stmt.term, Stmt.outline, ← hc.read, ← Stmt.MadeOf.read hb, Term.stmt]
    rfl
  | .function h =>
    rw [Stmt.term, Stmt.outline, Function.MadeOf.read h]
  | @Stmt.MadeOf.giveBack _ t none ht hk hv =>
    rw [Stmt.term, Stmt.outline, Term.stmt]
    rfl
  | @Stmt.MadeOf.giveBack _ t (some e) ht hk hv =>
    rw [Stmt.term, Stmt.outline, Option.map_some, ← (hv e rfl).read, Term.stmt]
    rfl
  | @Stmt.MadeOf.classDecl _ name superclass methods hn hs hm =>
    have hmethods : (methods.map fun f => (f.term, f.term.stmt)).map (Term.declared ∘ Prod.snd) =
        methods.map Function.outline := by
      rw [List.map_map]
      exact List.map_congr_left fun f hf => congrArg Term.declared (Function.MadeOf.read (hm f hf))
    rw [Stmt.term, Stmt.outline, ← hmethods, Term.stmt, List.map_append, List.map_map]
    cases superclass with
    | none =>
      -- The first method is a list, and so it is not taken for the superclass.
      cases methods with
      | nil => rfl
      | cons f methods =>
        obtain ⟨method, params, body⟩ := f
        simp only [List.map_cons, Function.comp_apply, Function.term]
        rfl
    | some r => rfl

/-- The outline of a function is read back. -/
theorem Function.MadeOf.read {f : Function Unit} (h : f.MadeOf Token.Shows) :
    f.term.stmt = .function f.outline := by
  match h with
  | @Function.MadeOf.mk _ name params body hn hp hb =>
    have hbody : body.map (Prod.snd ∘ (fun t => (t, t.stmt)) ∘ Stmt.term) = body.map Stmt.outline :=
      List.map_congr_left fun stmt hstmt => Stmt.MadeOf.read (hb stmt hstmt)
    have hparams : params.map (Term.name ∘ Name.term) = params.map Name.outline :=
      List.map_congr_left fun n _ => rfl
    rw [Function.term, Function.outline, ← hbody, ← hparams, Term.stmt, ← List.map_map,
      ← List.map_map, ← List.map_map]
    rfl

end

mutual

/-- The term of a statement is legible. -/
theorem Stmt.MadeOf.legible {stmt : Stmt Unit} (h : stmt.MadeOf Token.Shows) :
    stmt.term.Legible := by
  match h with
  | .expression h | .print h =>
    rw [Stmt.term]
    exact .node (legible_head _ (by simp)) (List.forall_mem_singleton.mpr h.legible)
  | @Stmt.MadeOf.var _ name none hn hi =>
    rw [Stmt.term]
    exact .node (legible_head _ (by simp)) (List.forall_mem_singleton.mpr hn.legible)
  | @Stmt.MadeOf.var _ name (some e) hn hi =>
    rw [Stmt.term]
    exact .node (legible_head _ (by simp)) (List.forall_mem_cons.mpr ⟨hn.legible,
      Term.forall_mem_pair (.word (legible_head _ (by simp))) (hi e rfl).legible⟩)
  | .block h =>
    rw [Stmt.term]
    exact .node (legible_head _ (by simp))
      (List.forall_mem_map.mpr fun stmt hstmt => Stmt.MadeOf.legible (h stmt hstmt))
  | .ifThen hc ht =>
    rw [Stmt.term]
    exact .node (legible_head _ (by simp))
      (Term.forall_mem_pair hc.legible (Stmt.MadeOf.legible ht))
  | .ifElse hc ht he =>
    rw [Stmt.term]
    exact .node (legible_head _ (by simp)) (List.forall_mem_cons.mpr ⟨hc.legible,
      Term.forall_mem_pair (Stmt.MadeOf.legible ht) (Stmt.MadeOf.legible he)⟩)
  | .whileDo hc hb =>
    rw [Stmt.term]
    exact .node (legible_head _ (by simp))
      (Term.forall_mem_pair hc.legible (Stmt.MadeOf.legible hb))
  | .function h =>
    rw [Stmt.term]
    exact Function.MadeOf.legible h
  | @Stmt.MadeOf.giveBack _ t none ht hk hv =>
    rw [Stmt.term]
    exact .node (legible_head _ (by simp)) fun _ h => absurd h List.not_mem_nil
  | @Stmt.MadeOf.giveBack _ t (some e) ht hk hv =>
    rw [Stmt.term]
    exact .node (legible_head _ (by simp)) (List.forall_mem_singleton.mpr (hv e rfl).legible)
  | @Stmt.MadeOf.classDecl _ name superclass methods hn hs hm =>
    have hmethods := List.forall_mem_map.mpr fun f hf => Function.MadeOf.legible (hm f hf)
    rw [Stmt.term]
    refine .node (legible_head _ (by simp)) (List.forall_mem_append.mpr ⟨?_, hmethods⟩)
    cases superclass with
    | none => exact List.forall_mem_singleton.mpr hn.legible
    | some r =>
      exact List.forall_mem_cons.mpr ⟨hn.legible,
        Term.forall_mem_pair (.word (legible_head _ (by simp))) (hs r rfl).legible⟩

/-- The term of a function is legible. -/
theorem Function.MadeOf.legible {f : Function Unit} (h : f.MadeOf Token.Shows) :
    f.term.Legible := by
  match h with
  | .mk hn hp hb =>
    rw [Function.term]
    refine .node (legible_head _ (by simp)) (List.forall_mem_cons.mpr ⟨hn.legible,
      List.forall_mem_cons.mpr ⟨.list (List.forall_mem_map.mpr fun n hn => (hp n hn).legible), ?_⟩⟩)
    exact List.forall_mem_map.mpr fun stmt hstmt => Stmt.MadeOf.legible (hb stmt hstmt)

end

end LoxKit
