import LoxKit.Grammar.Statement

/-!
# What trees are made of

Reading makes up no tokens: whatever a reader says about a stream, it says about tokens of that
stream, and the names, the keywords and the literals in its trees are those of tokens. This holds
with issues and without, since a declaration that can not be read leaves no tree at all. The one
literal that stands in no text is the condition of a for loop that has none.

`Stays P p Q` says so of a reader: of tokens with the property `P` it leaves only such tokens, its
issues are about such tokens, and its value is as `Q` says. The predicate passes through all that
readers are made of.

Headlines:
* `Expr.MadeOf`, `Stmt.MadeOf`, `Function.MadeOf`: the trees of tokens with a property.
* `Stays.bind`, `stays_chain`, `stays_many`: sequences and loops.
* **`Grammar.parse_madeOf`**: the issues and the statements of a text.
-/

namespace LoxKit

variable {P : Token → Prop}

/-! ## Issues and trees of tokens -/

/-- An issue about a token with a property. -/
def Issue.At (P : Token → Prop) (i : Issue) : Prop :=
  ∃ t c, P t ∧ i = .atToken t c

/-- A name that a token of a kind gives. -/
def Name.Of (P : Token → Prop) (kind : Kind) (n : Name) : Prop :=
  ∃ t, P t ∧ t.kind = kind ∧ n = Grammar.nameOf t

open Grammar (literalOf? alwaysTrue)

/-- The expressions that are made of tokens with a property. -/
inductive Expr.MadeOf (P : Token → Prop) : Expr Unit → Prop
  | literal {t : Token} {value : Literal} (ht : P t) (hv : literalOf? t = some value) :
      MadeOf P (.literal value t)
  | alwaysTrue (pos : Pos) : MadeOf P (alwaysTrue pos)
  | grouping {inner : Expr Unit} (h : MadeOf P inner) : MadeOf P (.grouping inner)
  | unary {arg : Expr Unit} (op : UnaryOp) (pos : Pos) (h : MadeOf P arg) :
      MadeOf P (.unary op pos arg)
  | binary {lhs rhs : Expr Unit} (op : BinaryOp) (pos : Pos) (hl : MadeOf P lhs)
      (hr : MadeOf P rhs) : MadeOf P (.binary op pos lhs rhs)
  | logical {lhs rhs : Expr Unit} (op : LogicalOp) (pos : Pos) (hl : MadeOf P lhs)
      (hr : MadeOf P rhs) : MadeOf P (.logical op pos lhs rhs)
  | var {target : Reference Unit} (h : target.name.Of P .identifier) : MadeOf P (.var target)
  | assign {target : Reference Unit} {value : Expr Unit} (h : target.name.Of P .identifier)
      (hv : MadeOf P value) : MadeOf P (.assign target value)
  | call {callee : Expr Unit} {args : List (Expr Unit)} (paren : Pos) (hc : MadeOf P callee)
      (ha : ∀ a ∈ args, MadeOf P a) : MadeOf P (.call callee args paren)
  | get {object : Expr Unit} {field : Name} (ho : MadeOf P object)
      (hf : field.Of P .identifier) : MadeOf P (.get object field)
  | set {object value : Expr Unit} {field : Name} (ho : MadeOf P object)
      (hf : field.Of P .identifier) (hv : MadeOf P value) : MadeOf P (.set object field value)
  | this {target : Reference Unit} (h : target.name.Of P (.keyword .this)) :
      MadeOf P (.this target)
  | super {target : Reference Unit} {method : Name} (h : target.name.Of P (.keyword .super))
      (hm : method.Of P .identifier) : MadeOf P (.super target method)

mutual

/-- The statements that are made of tokens with a property. -/
inductive Stmt.MadeOf (P : Token → Prop) : Stmt Unit → Prop
  | expression {e : Expr Unit} (h : e.MadeOf P) : Stmt.MadeOf P (.expression e)
  | print {e : Expr Unit} (h : e.MadeOf P) : Stmt.MadeOf P (.print e)
  | var {name : Name} {initializer : Option (Expr Unit)} (hn : name.Of P .identifier)
      (hi : ∀ e ∈ initializer, e.MadeOf P) : Stmt.MadeOf P (.var name initializer)
  | block {body : List (Stmt Unit)} (h : ∀ stmt ∈ body, Stmt.MadeOf P stmt) :
      Stmt.MadeOf P (.block body)
  | ifThen {condition : Expr Unit} {thenPart : Stmt Unit} (hc : condition.MadeOf P)
      (ht : Stmt.MadeOf P thenPart) : Stmt.MadeOf P (.ifThen condition thenPart)
  | ifElse {condition : Expr Unit} {thenPart elsePart : Stmt Unit} (hc : condition.MadeOf P)
      (ht : Stmt.MadeOf P thenPart) (he : Stmt.MadeOf P elsePart) :
      Stmt.MadeOf P (.ifElse condition thenPart elsePart)
  | whileDo {condition : Expr Unit} {body : Stmt Unit} (hc : condition.MadeOf P)
      (hb : Stmt.MadeOf P body) : Stmt.MadeOf P (.whileDo condition body)
  | function {f : Function Unit} (h : Function.MadeOf P f) : Stmt.MadeOf P (.function f)
  | giveBack {t : Token} {value : Option (Expr Unit)} (ht : P t) (hk : t.kind = .keyword .return)
      (hv : ∀ e ∈ value, e.MadeOf P) : Stmt.MadeOf P (.giveBack t.pos value)
  | classDecl {name : Name} {superclass : Option (Reference Unit)} {methods : List (Function Unit)}
      (hn : name.Of P .identifier) (hs : ∀ r ∈ superclass, r.name.Of P .identifier)
      (hm : ∀ f ∈ methods, Function.MadeOf P f) :
      Stmt.MadeOf P (.classDecl name superclass methods)

/-- The functions that are made of tokens with a property. -/
inductive Function.MadeOf (P : Token → Prop) : Function Unit → Prop
  | mk {name : Name} {params : List Name} {body : List (Stmt Unit)} (hn : name.Of P .identifier)
      (hp : ∀ p ∈ params, p.Of P .identifier) (hb : ∀ stmt ∈ body, Stmt.MadeOf P stmt) :
      Function.MadeOf P (.mk name params body)

end

/-! ## Readers -/

/-- A stream of tokens with a property. -/
def Stream.Only (P : Token → Prop) (s : Stream) : Prop :=
  ∀ t ∈ s.all, P t

theorem Stream.Only.next {s : Stream} (h : s.Only P) : P s.next := by
  obtain ⟨tokens, ending⟩ := s
  cases tokens with
  | nil => exact h _ List.mem_cons_self
  | cons t ts => exact h _ (List.mem_cons_of_mem _ List.mem_cons_self)

theorem Stream.Only.drop {s : Stream} (h : s.Only P) : s.drop.Only P := by
  intro t ht
  rcases List.mem_cons.mp ht with rfl | ht
  · exact h _ List.mem_cons_self
  · exact h t (List.mem_cons_of_mem _ (List.mem_of_mem_tail ht))

namespace Parser

variable {α β : Type}

/-- Of tokens with a property the reader leaves only such tokens, its issues are about such tokens,
and its value is as `Q` says. -/
def Stays (P : Token → Prop) (p : Parser α) (Q : α → Prop) : Prop :=
  ∀ s : Stream, s.Only P →
    (∀ i ∈ (p s).issues, i.At P) ∧ (p s).rest.Only P ∧ ∀ a ∈ (p s).value, Q a

variable {p : Parser α} {Q : α → Prop} {R : β → Prop}

theorem stays_pure {a : α} (h : Q a) : Stays P (pure a) Q :=
  fun _ hs => ⟨fun _ hi => absurd hi List.not_mem_nil, hs, fun _ ha => by cases ha; exact h⟩

theorem Stays.bind {f : α → Parser β} (hp : Stays P p Q) (hf : ∀ a, Q a → Stays P (f a) R) :
    Stays P (p >>= f) R := by
  intro s hs
  obtain ⟨hissues, hrest, hvalue⟩ := hp s hs
  show (∀ i ∈ (Parser.bind p f s).issues, i.At P) ∧ (Parser.bind p f s).rest.Only P ∧
    ∀ b ∈ (Parser.bind p f s).value, R b
  unfold Parser.bind
  rcases hv : (p s).value with _ | a
  · simp only [hv]
    exact ⟨hissues, hrest, fun _ hb => by cases hb⟩
  · obtain ⟨hissues', hrest', hvalue'⟩ := hf a (hvalue a hv) _ hrest
    simp only [hv]
    exact ⟨fun i hi => (List.mem_append.mp hi).elim (hissues i) (hissues' i), hrest', hvalue'⟩

theorem Stays.mono {Q' : α → Prop} (hp : Stays P p Q) (h : ∀ a, Q a → Q' a) : Stays P p Q' :=
  fun s hs => ⟨(hp s hs).1, (hp s hs).2.1, fun a ha => h a ((hp s hs).2.2 a ha)⟩

theorem Stays.map {f : α → β} (hp : Stays P p fun a => R (f a)) : Stays P (f <$> p) R :=
  Stays.bind (f := fun a => pure (f a)) hp fun _ ha => stays_pure ha

theorem Stays.some (hp : Stays P p Q) : Stays P (some <$> p) fun o => ∀ a ∈ o, Q a :=
  Stays.map (hp.mono fun a ha b hb => by cases hb; exact ha)

theorem stays_look : Stays P look (Stream.Only P) :=
  fun _ hs => ⟨fun _ hi => absurd hi List.not_mem_nil, hs, fun _ ha => by cases ha; exact hs⟩

theorem stays_report {i : Issue} (h : i.At P) : Stays P (report i) fun _ => True :=
  fun _ hs => ⟨List.forall_mem_singleton.mpr h, hs, fun _ _ => trivial⟩

theorem stays_giveUp : Stays P giveUp Q :=
  fun _ hs => ⟨fun _ hi => absurd hi List.not_mem_nil, hs, fun _ ha => by cases ha⟩

theorem stays_refuse (what : Expectation) : Stays P (refuse what) Q :=
  fun s hs => ⟨List.forall_mem_singleton.mpr ⟨s.next, _, hs.next, rfl⟩, hs, fun _ ha => by cases ha⟩

theorem stays_take? (test : Token → Option α) :
    Stays P (take? test) fun o => ∀ a ∈ o, ∃ t, P t ∧ test t = some a := by
  intro s hs
  have hnone : ∀ i ∈ ([] : List Issue), i.At P := fun _ hi => absurd hi List.not_mem_nil
  unfold take?
  rcases htokens : s.tokens with _ | ⟨t, ts⟩
  · exact ⟨hnone, hs, fun o ho => by cases ho; exact fun a ha => by cases ha⟩
  · cases htest : test t with
    | none =>
      simp only [htest]
      exact ⟨hnone, hs, fun o ho => by cases ho; exact fun a ha => by cases ha⟩
    | some a =>
      simp only [htest]
      refine ⟨hnone, hs.drop, fun o ho => ?_⟩
      cases ho
      intro b hb
      cases hb
      exact ⟨t, hs t (List.mem_cons_of_mem _ (htokens ▸ List.mem_cons_self)), htest⟩

theorem stays_accept (kind : Kind) :
    Stays P (accept kind) fun o => ∀ t ∈ o, P t ∧ t.kind = kind := by
  refine (stays_take? _).mono fun o ho t ht => ?_
  obtain ⟨u, hu, htest⟩ := ho t ht
  simp only [Option.ite_none_right_eq_some, Option.some.injEq] at htest
  exact ⟨htest.2 ▸ hu, htest.2 ▸ htest.1⟩

theorem stays_expect (kind : Kind) (what : Expectation) :
    Stays P (expect kind what) fun t => P t ∧ t.kind = kind := by
  intro s hs
  unfold expect
  rcases htokens : s.tokens with _ | ⟨t, ts⟩
  · exact stays_refuse what s hs
  · dsimp only
    split
    · rename_i hkind
      refine ⟨fun _ hi => absurd hi List.not_mem_nil, hs.drop, fun u hu => ?_⟩
      cases hu
      exact ⟨hs t (List.mem_cons_of_mem _ (htokens ▸ List.mem_cons_self)), hkind⟩
    · exact stays_refuse what s hs

theorem stays_symbol (sym : Symbol) (what : Expectation) :
    Stays P (symbol sym what) fun _ => True :=
  (stays_expect (.symbol sym) what).mono fun _ _ => trivial

/-! ### Loops -/

theorem stays_iterate {step : α → Parser (Option α)}
    (hstep : ∀ a, Q a → Stays P (step a) fun o => ∀ b ∈ o, Q b) : ∀ (rounds : List Token) (a : α),
    Q a → Stays P (iterate step rounds a) Q
  | [], a, ha => stays_pure ha
  | _ :: rounds, a, ha => by
    refine (hstep a ha).bind fun o ho => ?_
    cases o with
    | none => exact stays_pure ha
    | some b => exact stays_iterate hstep rounds b (ho b rfl)

theorem stays_chain {step : α → Parser (Option α)}
    (hstep : ∀ a, Q a → Stays P (step a) fun o => ∀ b ∈ o, Q b) {a : α} (ha : Q a) :
    Stays P (chain step a) Q :=
  fun s => stays_iterate hstep s.tokens a ha s

theorem stays_collect {item : Nat → Parser (Option α)}
    (hitem : ∀ n, Stays P (item n) fun o => ∀ a ∈ o, Q a) : ∀ (rounds : List Token) (count : Nat),
    Stays P (collect item rounds count) fun as => ∀ a ∈ as, Q a
  | [], _ => stays_pure fun _ h => absurd h List.not_mem_nil
  | _ :: rounds, count => by
    refine (hitem count).bind fun o ho => ?_
    cases o with
    | none => exact stays_pure fun _ h => absurd h List.not_mem_nil
    | some a =>
      exact (stays_collect hitem rounds (count + 1)).bind fun as has =>
        stays_pure (List.forall_mem_cons.mpr ⟨ho a rfl, has⟩)

theorem stays_many {item : Nat → Parser (Option α)}
    (hitem : ∀ n, Stays P (item n) fun o => ∀ a ∈ o, Q a) :
    Stays P (many item) fun as => ∀ a ∈ as, Q a :=
  fun s => stays_collect hitem s.tokens 0 s

theorem stays_manyUntil (kind : Kind) (hp : Stays P p Q) :
    Stays P (manyUntil kind p) fun as => ∀ a ∈ as, Q a := by
  refine stays_many fun _ => stays_look.bind fun s _ => ?_
  split
  · exact stays_pure fun _ h => by cases h
  · exact hp.bind fun a ha => stays_pure fun b hb => by cases hb; exact ha

theorem stays_commaSeparated {item : Nat → Parser α} (hitem : ∀ n, Stays P (item n) Q) :
    Stays P (commaSeparated item) fun as => ∀ a ∈ as, Q a := by
  refine (hitem 0).bind fun first hfirst => ?_
  refine Stays.bind (stays_many fun count => ?_) fun rest hrest =>
    stays_pure (List.forall_mem_cons.mpr ⟨hfirst, hrest⟩)
  refine (stays_accept (.symbol .comma)).bind fun o _ => ?_
  cases o with
  | none => exact stays_pure fun _ h => by cases h
  | some _ =>
    exact (hitem (count + 1)).bind fun a ha => stays_pure fun b hb => by cases hb; exact ha

end Parser

/-! ## Expressions -/

namespace Grammar

open LoxKit.Parser

/-- A token gives a name. -/
theorem of_nameOf {t : Token} {kind : Kind} (h : P t ∧ t.kind = kind) : (nameOf t).Of P kind :=
  ⟨t, h.1, h.2, rfl⟩

theorem stays_checkCount (what : String) (count : Nat) :
    Stays P (checkCount what count) fun _ => True := by
  unfold checkCount
  split
  · exact stays_look.bind fun s hs => stays_report ⟨s.next, _, hs.next, rfl⟩
  · exact stays_pure trivial

/-- Trees that are made of the trees of two operands. -/
def Joins (P : Token → Prop) (join : RawExpr → RawExpr → RawExpr) : Prop :=
  ∀ lhs rhs : RawExpr, lhs.MadeOf P → rhs.MadeOf P → (join lhs rhs).MadeOf P

theorem joins_binary {op? : Symbol → Option BinaryOp} {t : Token}
    {join : RawExpr → RawExpr → RawExpr} (h : joinBinary? op? t = some join) : Joins P join := by
  unfold joinBinary? at h
  split at h
  · obtain ⟨op, -, rfl⟩ := Option.map_eq_some_iff.mp h
    exact fun lhs rhs => .binary op t.pos
  · exact absurd h (by simp)

theorem joins_logical {op : LogicalOp} {t : Token} {join : RawExpr → RawExpr → RawExpr}
    (h : joinLogical? op t = some join) : Joins P join := by
  unfold joinLogical? at h
  split at h
  · cases h
    exact fun lhs rhs => .logical op t.pos
  · exact absurd h (by simp)

theorem stays_leftGrouped {operand : Parser RawExpr}
    {join? : Token → Option (RawExpr → RawExpr → RawExpr)} (h : Stays P operand (Expr.MadeOf P))
    (hjoin : ∀ t join, join? t = some join → Joins P join) :
    Stays P (leftGrouped operand join?) (Expr.MadeOf P) := by
  refine h.bind fun first hfirst => stays_chain (fun lhs hlhs => ?_) hfirst
  refine (stays_take? join?).bind fun o ho => ?_
  cases o with
  | none => exact stays_pure fun _ hb => by cases hb
  | some join =>
    obtain ⟨t, -, ht⟩ := ho join rfl
    refine h.bind fun rhs hrhs => stays_pure fun e he => ?_
    cases he
    exact hjoin t join ht lhs rhs hlhs hrhs

theorem madeOf_assignTo {target value e : RawExpr} (ht : target.MadeOf P) (hv : value.MadeOf P)
    (he : assignTo? target value = some e) : e.MadeOf P := by
  cases ht with
  | var h =>
    cases he
    exact .assign h hv
  | get ho hf =>
    cases he
    exact .set ho hf hv
  | _ => exact absurd he (by simp [assignTo?, alwaysTrue])

section Expressions

variable {inner : Parser RawExpr} (h : Stays P inner (Expr.MadeOf P))

include h

theorem stays_primary : Stays P (primary inner) (Expr.MadeOf P) := by
  refine (stays_take? _).bind fun o ho => ?_
  cases o with
  | some literal =>
    obtain ⟨t, hp, ht⟩ := ho literal rfl
    obtain ⟨value, hvalue, rfl⟩ := Option.map_eq_some_iff.mp ht
    exact stays_pure (.literal hp hvalue)
  | none =>
  refine (stays_accept (.keyword .super)).bind fun o ho => ?_
  cases o with
  | some keyword =>
    refine (stays_symbol .dot .superDot).bind fun _ _ => ?_
    exact (stays_expect .identifier .superclassMethodName).bind fun method hmethod =>
      stays_pure (.super (of_nameOf (ho keyword rfl)) (of_nameOf hmethod))
  | none =>
  refine (stays_accept (.keyword .this)).bind fun o ho => ?_
  cases o with
  | some keyword => exact stays_pure (.this (of_nameOf (ho keyword rfl)))
  | none =>
  refine (stays_accept .identifier).bind fun o ho => ?_
  cases o with
  | some name => exact stays_pure (.var (of_nameOf (ho name rfl)))
  | none =>
  refine (stays_accept (.symbol .leftParen)).bind fun o _ => ?_
  cases o with
  | some _ =>
    exact h.bind fun e he =>
      (stays_symbol .rightParen .groupEnd).bind fun _ _ => stays_pure (.grouping he)
  | none => exact stays_refuse .expression

theorem stays_arguments : Stays P (arguments inner) fun r => ∀ e ∈ r.1, e.MadeOf P := by
  refine stays_look.bind fun s _ => ?_
  have hend : ∀ args : List RawExpr, (∀ e ∈ args, e.MadeOf P) → Stays P
      (symbol .rightParen .argumentsEnd >>= fun paren => pure (args, paren.pos))
      fun r => ∀ e ∈ r.1, e.MadeOf P := fun _ hargs =>
    (stays_symbol .rightParen .argumentsEnd).bind fun _ _ => stays_pure hargs
  split
  · exact hend [] fun _ hm => absurd hm List.not_mem_nil
  · exact (stays_commaSeparated fun count => (stays_checkCount _ count).bind fun _ _ => h).bind hend

theorem stays_postfixed : Stays P (postfixed inner) (Expr.MadeOf P) := by
  refine (stays_primary h).bind fun first hfirst => stays_chain (fun object hobject => ?_) hfirst
  refine (stays_accept (.symbol .leftParen)).bind fun o _ => ?_
  cases o with
  | some _ =>
    refine (stays_arguments h).bind fun r hr => stays_pure fun e he => ?_
    cases he
    exact .call r.2 hobject hr
  | none =>
  refine (stays_accept (.symbol .dot)).bind fun o _ => ?_
  cases o with
  | some _ =>
    refine (stays_expect .identifier .propertyName).bind fun field hf => stays_pure fun e he => ?_
    cases he
    exact .get hobject (of_nameOf hf)
  | none => exact stays_pure fun _ hb => by cases hb

theorem stays_unary : Stays P (unary inner) (Expr.MadeOf P) := by
  refine Stays.bind (Q := fun _ => True) ((stays_many fun _ => (stays_take? _).mono
    fun o _ a _ => trivial).mono fun _ _ => trivial) fun ops _ => ?_
  refine (stays_postfixed h).bind fun operand hoperand => stays_pure ?_
  induction ops with
  | nil => exact hoperand
  | cons op ops ih => exact .unary op.1 op.2 ih

theorem stays_disjunction : Stays P (disjunction inner) (Expr.MadeOf P) := by
  have binary : ∀ (op? : Symbol → Option BinaryOp) {operand : Parser RawExpr},
      Stays P operand (Expr.MadeOf P) →
        Stays P (leftGrouped operand (joinBinary? op?)) (Expr.MadeOf P) :=
    fun op? _ ho => stays_leftGrouped ho fun _ _ => joins_binary
  have logical : ∀ (op : LogicalOp) {operand : Parser RawExpr},
      Stays P operand (Expr.MadeOf P) →
        Stays P (leftGrouped operand (joinLogical? op)) (Expr.MadeOf P) :=
    fun op _ ho => stays_leftGrouped ho fun _ _ => joins_logical
  exact logical .or (logical .and (binary equalityOp? (binary comparisonOp? (binary termOp?
    (binary factorOp? (stays_unary h))))))

theorem stays_assignment : Stays P (assignment inner) (Expr.MadeOf P) := by
  refine (stays_disjunction h).bind fun target htarget => ?_
  refine (stays_accept (.symbol .equal)).bind fun o ho => ?_
  cases o with
  | none => exact stays_pure htarget
  | some equals =>
    refine h.bind fun value hvalue => ?_
    split
    · rename_i e he
      exact stays_pure (madeOf_assignTo htarget hvalue he)
    · exact (stays_report ⟨equals, _, (ho equals rfl).1, rfl⟩).bind fun _ _ => stays_pure htarget

end Expressions

theorem stays_expressionWithin : ∀ levels : List Token,
    Stays P (expressionWithin levels) (Expr.MadeOf P)
  | [] => stays_giveUp
  | _ :: levels => stays_assignment (stays_expressionWithin levels)

theorem stays_expression : Stays P expression (Expr.MadeOf P) :=
  fun s => stays_expressionWithin s.all s

/-! ## Statements -/

theorem madeOf_forLoop (keyword : Pos) {initializer : Option RawStmt}
    {condition increment : Option RawExpr} {body : RawStmt}
    (hi : ∀ stmt ∈ initializer, stmt.MadeOf P) (hc : ∀ e ∈ condition, e.MadeOf P)
    (hn : ∀ e ∈ increment, e.MadeOf P) (hb : body.MadeOf P) :
    (forLoop keyword initializer condition increment body).MadeOf P := by
  have hpair : ∀ {first second : RawStmt}, first.MadeOf P → second.MadeOf P →
      (Stmt.block [first, second]).MadeOf P := fun hf hs =>
    .block (List.forall_mem_cons.mpr ⟨hf, List.forall_mem_singleton.mpr hs⟩)
  have hcondition : (condition.getD (alwaysTrue keyword)).MadeOf P := by
    cases condition with
    | none => exact .alwaysTrue keyword
    | some e => exact hc e rfl
  cases initializer with
  | none =>
    cases increment with
    | none => exact .whileDo hcondition hb
    | some e => exact .whileDo hcondition (hpair hb (.expression (hn e rfl)))
  | some first =>
    cases increment with
    | none => exact hpair (hi first rfl) (.whileDo hcondition hb)
    | some e => exact hpair (hi first rfl) (.whileDo hcondition (hpair hb (.expression (hn e rfl))))

theorem stays_optionalExpression (stop : Symbol) :
    Stays P (optionalExpression stop) fun o => ∀ e ∈ o, e.MadeOf P := by
  refine stays_look.bind fun s _ => ?_
  split
  · exact stays_pure fun _ he => by cases he
  · exact stays_expression.bind fun e he => stays_pure fun e' he' => by cases he'; exact he

theorem stays_variableDeclaration : Stays P variableDeclaration (Stmt.MadeOf P) := by
  refine (stays_expect .identifier .variableName).bind fun name hname => ?_
  have hend : ∀ initializer : Option RawExpr, (∀ e ∈ initializer, e.MadeOf P) → Stays P
      (symbol .semicolon .variableEnd >>= fun _ => pure (.var (nameOf name) initializer))
      (Stmt.MadeOf P) := fun initializer hi =>
    (stays_symbol .semicolon .variableEnd).bind fun _ _ => stays_pure (.var (of_nameOf hname) hi)
  refine (stays_accept (.symbol .equal)).bind fun o _ => ?_
  cases o with
  | none => exact hend none fun _ he => by cases he
  | some _ => exact stays_expression.some.bind hend

theorem stays_expressionStatement : Stays P expressionStatement (Stmt.MadeOf P) :=
  stays_expression.bind fun _ he =>
    (stays_symbol .semicolon .expressionEnd).bind fun _ _ => stays_pure (.expression he)

theorem stays_printStatement : Stays P printStatement (Stmt.MadeOf P) :=
  stays_expression.bind fun _ he =>
    (stays_symbol .semicolon .printEnd).bind fun _ _ => stays_pure (.print he)

theorem stays_returnStatement {t : Token} (ht : P t) (hk : t.kind = .keyword .return) :
    Stays P (returnStatement t.pos) (Stmt.MadeOf P) :=
  (stays_optionalExpression .semicolon).bind fun _ hvalue =>
    (stays_symbol .semicolon .returnEnd).bind fun _ _ => stays_pure (.giveBack ht hk hvalue)

theorem stays_parameters :
    Stays P parameters fun params => ∀ n ∈ params, n.Of P .identifier := by
  refine stays_look.bind fun s _ => ?_
  have hend : ∀ params : List Name, (∀ n ∈ params, n.Of P .identifier) → Stays P
      (symbol .rightParen .parametersEnd >>= fun _ => pure params)
      fun params => ∀ n ∈ params, n.Of P .identifier := fun _ hparams =>
    (stays_symbol .rightParen .parametersEnd).bind fun _ _ => stays_pure hparams
  split
  · exact hend [] fun _ hm => absurd hm List.not_mem_nil
  · refine (stays_commaSeparated fun count => (stays_checkCount _ count).bind fun _ _ => ?_).bind
      hend
    exact Stays.map ((stays_expect .identifier .parameterName).mono fun _ => of_nameOf)

section Statements

variable {statement : Parser RawStmt} {declaration : Parser (Option RawStmt)}
  (hs : Stays P statement (Stmt.MadeOf P))
  (hd : Stays P declaration fun o => ∀ stmt ∈ o, stmt.MadeOf P)

include hd in
theorem stays_blockBody :
    Stays P (blockBody declaration) fun body => ∀ stmt ∈ body, stmt.MadeOf P := by
  refine (stays_manyUntil (.symbol .rightBrace) hd).bind fun body hbody => ?_
  refine (stays_symbol .rightBrace .blockEnd).bind fun _ _ => stays_pure fun stmt hstmt => ?_
  obtain ⟨o, ho, hmem⟩ := List.mem_filterMap.mp hstmt
  exact hbody o ho stmt hmem

include hd in
theorem stays_functionDeclaration (routine : Routine) :
    Stays P (functionDeclaration declaration routine) (Function.MadeOf P) := by
  refine (stays_expect .identifier (.routineName routine)).bind fun name hname => ?_
  refine (stays_symbol .leftParen (.parametersStart routine)).bind fun _ _ => ?_
  refine stays_parameters.bind fun params hparams => ?_
  refine (stays_symbol .leftBrace (.routineBodyStart routine)).bind fun _ _ => ?_
  exact (stays_blockBody hd).bind fun body hbody =>
    stays_pure (.mk (of_nameOf hname) hparams hbody)

include hd in
theorem stays_classDeclaration : Stays P (classDeclaration declaration) (Stmt.MadeOf P) := by
  refine (stays_expect .identifier .className).bind fun name hname => ?_
  have hend : ∀ superclass : Option (Reference Unit),
      (∀ r ∈ superclass, r.name.Of P .identifier) → Stays P (do
        let _ ← symbol .leftBrace .classBodyStart
        let methods ← manyUntil (.symbol .rightBrace) (functionDeclaration declaration .method)
        let _ ← symbol .rightBrace .classBodyEnd
        pure (.classDecl (nameOf name) superclass methods)) (Stmt.MadeOf P) := by
    intro superclass hsuperclass
    refine (stays_symbol .leftBrace .classBodyStart).bind fun _ _ => ?_
    refine (stays_manyUntil (.symbol .rightBrace) (stays_functionDeclaration hd .method)).bind
      fun methods hmethods => ?_
    exact (stays_symbol .rightBrace .classBodyEnd).bind fun _ _ =>
      stays_pure (.classDecl (of_nameOf hname) hsuperclass hmethods)
  refine (stays_accept (.symbol .less)).bind fun o _ => ?_
  cases o with
  | none => exact hend none fun _ hr => by cases hr
  | some _ =>
    refine Stays.bind (Stays.map ((stays_expect .identifier .superclassName).mono ?_)) hend
    intro t ht r hr
    cases hr
    exact of_nameOf ht

include hs in
theorem stays_forStatement (keyword : Pos) :
    Stays P (forStatement statement keyword) (Stmt.MadeOf P) := by
  refine (stays_symbol .leftParen .forStart).bind fun _ _ => ?_
  have hend : ∀ initializer : Option RawStmt, (∀ stmt ∈ initializer, stmt.MadeOf P) →
      Stays P (do
        let condition ← optionalExpression .semicolon
        let _ ← symbol .semicolon .loopConditionEnd
        let increment ← optionalExpression .rightParen
        let _ ← symbol .rightParen .forClausesEnd
        let body ← statement
        pure (forLoop keyword initializer condition increment body)) (Stmt.MadeOf P) := by
    intro initializer hi
    refine (stays_optionalExpression .semicolon).bind fun condition hc => ?_
    refine (stays_symbol .semicolon .loopConditionEnd).bind fun _ _ => ?_
    refine (stays_optionalExpression .rightParen).bind fun increment hn => ?_
    refine (stays_symbol .rightParen .forClausesEnd).bind fun _ _ => ?_
    exact hs.bind fun body hb => stays_pure (madeOf_forLoop keyword hi hc hn hb)
  refine (stays_accept (.symbol .semicolon)).bind fun o _ => ?_
  cases o with
  | some _ => exact hend none fun _ he => by cases he
  | none =>
  refine (stays_accept (.keyword .var)).bind fun o _ => ?_
  cases o with
  | some _ => exact stays_variableDeclaration.some.bind hend
  | none => exact stays_expressionStatement.some.bind hend

include hs in
theorem stays_ifStatement : Stays P (ifStatement statement) (Stmt.MadeOf P) := by
  refine (stays_symbol .leftParen .ifStart).bind fun _ _ => ?_
  refine stays_expression.bind fun condition hc => ?_
  refine (stays_symbol .rightParen .ifConditionEnd).bind fun _ _ => ?_
  refine hs.bind fun thenPart ht => ?_
  refine (stays_accept (.keyword .else)).bind fun o _ => ?_
  cases o with
  | none => exact stays_pure (.ifThen hc ht)
  | some _ => exact hs.bind fun elsePart he => stays_pure (.ifElse hc ht he)

include hs in
theorem stays_whileStatement : Stays P (whileStatement statement) (Stmt.MadeOf P) := by
  refine (stays_symbol .leftParen .whileStart).bind fun _ _ => ?_
  refine stays_expression.bind fun condition hc => ?_
  refine (stays_symbol .rightParen .whileConditionEnd).bind fun _ _ => ?_
  exact hs.bind fun body hb => stays_pure (.whileDo hc hb)

include hs hd in
theorem stays_statementOver : Stays P (statementOver statement declaration) (Stmt.MadeOf P) := by
  refine (stays_accept (.keyword .for)).bind fun o _ => ?_
  cases o with
  | some keyword => exact stays_forStatement hs keyword.pos
  | none =>
  refine (stays_accept (.keyword .if)).bind fun o _ => ?_
  cases o with
  | some _ => exact stays_ifStatement hs
  | none =>
  refine (stays_accept (.keyword .print)).bind fun o _ => ?_
  cases o with
  | some _ => exact stays_printStatement
  | none =>
  refine (stays_accept (.keyword .return)).bind fun o ho => ?_
  cases o with
  | some keyword => exact stays_returnStatement (ho keyword rfl).1 (ho keyword rfl).2
  | none =>
  refine (stays_accept (.keyword .while)).bind fun o _ => ?_
  cases o with
  | some _ => exact stays_whileStatement hs
  | none =>
  refine (stays_accept (.symbol .leftBrace)).bind fun o _ => ?_
  cases o with
  | some _ => exact Stays.map ((stays_blockBody hd).mono fun _ => .block)
  | none => exact stays_expressionStatement

include hs hd in
theorem stays_declarationOver :
    Stays P (declarationOver statement declaration) (Stmt.MadeOf P) := by
  refine (stays_accept (.keyword .class)).bind fun o _ => ?_
  cases o with
  | some _ => exact stays_classDeclaration hd
  | none =>
  refine (stays_accept (.keyword .fun)).bind fun o _ => ?_
  cases o with
  | some _ => exact Stays.map ((stays_functionDeclaration hd .function).mono fun _ => .function)
  | none =>
  refine (stays_accept (.keyword .var)).bind fun o _ => ?_
  cases o with
  | some _ => exact stays_variableDeclaration
  | none => exact hs

end Statements

theorem skip_subset {t : Token} : ∀ {ts : List Token}, t ∈ skip ts → t ∈ ts := by
  have hfrom : ∀ (ts : List Token) (last : Token), t ∈ skipFrom last ts → t ∈ ts := by
    intro ts
    induction ts with
    | nil => exact fun _ h => h
    | cons u us ih =>
      intro last h
      unfold skipFrom at h
      split at h
      · exact h
      · exact List.mem_cons_of_mem _ (ih u h)
  intro ts h
  cases ts with
  | nil => exact h
  | cons u us => exact List.mem_cons_of_mem _ (hfrom us u h)

/-- Skipping leaves only tokens of the stream. -/
theorem stays_recovering {declaration : Parser RawStmt} (h : Stays P declaration (Stmt.MadeOf P)) :
    Stays P (recovering declaration) fun o => ∀ stmt ∈ o, stmt.MadeOf P := by
  intro s hs
  obtain ⟨hissues, hrest, hvalue⟩ := h s hs
  unfold recovering
  rcases hv : (declaration s).value with _ | stmt
  · simp only [hv]
    refine ⟨hissues, fun t ht => ?_, fun o ho => by cases ho; exact fun _ hm => by cases hm⟩
    rcases List.mem_cons.mp ht with rfl | ht
    · exact hrest _ List.mem_cons_self
    · exact hrest t (List.mem_cons_of_mem _ (skip_subset ht))
  · simp only [hv]
    refine ⟨hissues, hrest, fun o ho => ?_⟩
    cases ho
    exact fun stmt' hm => by cases hm; exact hvalue _ hv

theorem stays_levels : ∀ levels : List Token,
    Stays P (statementWithin levels) (Stmt.MadeOf P) ∧
      Stays P (declarationWithin levels) fun o => ∀ stmt ∈ o, stmt.MadeOf P
  | [] => ⟨stays_giveUp, stays_giveUp⟩
  | _ :: levels => by
    obtain ⟨hs, hd⟩ := stays_levels levels
    have hstatement := stays_statementOver hs hd
    exact ⟨hstatement, stays_recovering (stays_declarationOver hstatement hd)⟩

theorem stays_program : Stays P program fun stmts => ∀ stmt ∈ stmts, stmt.MadeOf P := by
  have hd : Stays P declaration fun o => ∀ stmt ∈ o, stmt.MadeOf P :=
    fun s => (stays_levels s.all).2 s
  have hitem : ∀ _ : Nat, Stays P (look >>= fun s =>
      if s.atEnd then pure none else some <$> declaration)
      fun o => ∀ stmt? ∈ o, ∀ stmt ∈ stmt?, stmt.MadeOf P := by
    refine fun _ => stays_look.bind fun s _ => ?_
    split
    · exact stays_pure fun _ ho => by cases ho
    · exact hd.some
  refine (stays_many hitem).bind fun body hbody => stays_pure fun stmt hstmt => ?_
  obtain ⟨o, ho, hmem⟩ := List.mem_filterMap.mp hstmt
  exact hbody o ho stmt hmem

/-- **Reading makes up no tokens**: the issues with tokens are about these tokens, and the
statements are made of them. -/
theorem parse_madeOf {tokens : Tokens} (h : ∀ t ∈ tokens.all, P t) :
    (∀ i ∈ (parse tokens).issues, i.At P) ∧
      ∀ stmt ∈ (parse tokens).statements, stmt.MadeOf P := by
  have hs : Stream.Only P ⟨tokens.tokens, tokens.ending⟩ := by
    intro t ht
    refine h t (List.mem_append.mpr ?_)
    rcases List.mem_cons.mp ht with rfl | ht
    · exact Or.inr (List.mem_singleton_self _)
    · exact Or.inl ht
  obtain ⟨hissues, -, hvalue⟩ := stays_program _ hs
  refine ⟨hissues, fun stmt hstmt => ?_⟩
  unfold parse at hstmt
  dsimp only at hstmt
  cases hv : (program ⟨tokens.tokens, tokens.ending⟩).value with
  | none =>
    rw [hv] at hstmt
    exact absurd hstmt List.not_mem_nil
  | some stmts =>
    rw [hv] at hstmt
    exact hvalue stmts hv stmt hstmt

end Grammar

end LoxKit
