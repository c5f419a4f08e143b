import LoxKit.Grammar.Statement
import Mathlib

/-!
# The grammar of Lox

What a program is, as rules on lists of tokens. `Expression` and `Phrase` are the derivations: each
carries the tokens it covers, the tree it stands for, and the issues it has in itself, which are
those that do not make a text ungrammatical: a target that can not be assigned to, and an argument
or a parameter too many.

* Operators between two operands group to the left, assignment groups to the right, and its left
  side may be any disjunction.
* A statement is *dangling* when it ends in an `if` without `else`. What stands before an `else` is
  not dangling, so that an `else` belongs to the nearest `if` that is open.
* A list of arguments or parameters has any length. Each item past the 255th is an issue at its
  first token.

Headlines:
* `Expression`, `Phrase`: the rules.
* `Expression.starts`: which tokens an expression starts with.
* `Phrase.declarations_not_else`: no declaration starts with `else`.
-/

namespace LoxKit.Grammar

/-! ## Ranks -/

/-- How tightly an expression binds. -/
inductive Rank where
  | assignment | disjunction | conjunction | equality | comparison | term | factor | unary | call
  | primary
  deriving Repr, DecidableEq

/-- The rank that binds next tighter. -/
def Rank.tighter : Rank → Rank
  | assignment => disjunction
  | disjunction => conjunction
  | conjunction => equality
  | equality => comparison
  | comparison => term
  | term => factor
  | factor => unary
  | unary => call
  | call | primary => primary

/-- The rank of the expressions that an operator makes. -/
def Rank.ofBinary : BinaryOp → Rank
  | .equal | .notEqual => equality
  | .greater | .greaterEqual | .less | .lessEqual => comparison
  | .minus | .plus => term
  | .divide | .times => factor

/-- The rank of the expressions that an operator makes which may leave out its right operand. -/
def Rank.ofLogical : LogicalOp → Rank
  | .and => conjunction
  | .or => disjunction

/-! ## Expressions -/

/-- The issue with the item of a list before which `count` others stand, at its first token. -/
def excess (what : String) (count : Nat) (item : List Token) : List Issue :=
  if maxArguments ≤ count then item.head?.toList.map fun t => .atToken t (.tooMany what) else []

/-- What is derived: an expression of a rank, or arguments before which `count` others stand. -/
inductive ExpressionSort where
  | ranked (r : Rank)
  | arguments (count : Nat)

/-- The trees of a sort. -/
abbrev ExpressionSort.Tree : ExpressionSort → Type
  | ranked _ => RawExpr
  | arguments _ => List RawExpr

/-- The rules of expressions. -/
inductive Expression : (sort : ExpressionSort) → List Token → sort.Tree → List Issue → Prop
  | tighter {r : Rank} {ts : List Token} {e : RawExpr} {is : List Issue}
      (inner : Expression (.ranked r.tighter) ts e is) : Expression (.ranked r) ts e is
  | literal {t : Token} {value : Literal} (ht : literalOf? t = some value) :
      Expression (.ranked .primary) [t] (.literal value t) []
  | this {t : Token} (ht : t.kind = .keyword .this) :
      Expression (.ranked .primary) [t] (.this (referenceAt t)) []
  | var {t : Token} (ht : t.kind = .identifier) :
      Expression (.ranked .primary) [t] (.var (referenceAt t)) []
  | super {t dot method : Token} (ht : t.kind = .keyword .super) (hd : dot.kind = .symbol .dot)
      (hm : method.kind = .identifier) :
      Expression (.ranked .primary) [t, dot, method] (.super (referenceAt t) (nameOf method)) []
  | grouping {l r : Token} {ts : List Token} {e : RawExpr} {is : List Issue}
      (hl : l.kind = .symbol .leftParen) (inner : Expression (.ranked .assignment) ts e is)
      (hr : r.kind = .symbol .rightParen) :
      Expression (.ranked .primary) (l :: ts ++ [r]) (.grouping e) is
  | get {ts : List Token} {object : RawExpr} {is : List Issue} {dot field : Token}
      (left : Expression (.ranked .call) ts object is) (hd : dot.kind = .symbol .dot)
      (hf : field.kind = .identifier) :
      Expression (.ranked .call) (ts ++ [dot, field]) (.get object (nameOf field)) is
  | callNone {ts : List Token} {callee : RawExpr} {is : List Issue} {l r : Token}
      (left : Expression (.ranked .call) ts callee is) (hl : l.kind = .symbol .leftParen)
      (hr : r.kind = .symbol .rightParen) :
      Expression (.ranked .call) (ts ++ [l, r]) (.call callee [] r.pos) is
  | call {ts us : List Token} {callee : RawExpr} {args : List RawExpr} {is js : List Issue}
      {l r : Token} (left : Expression (.ranked .call) ts callee is)
      (hl : l.kind = .symbol .leftParen) (inner : Expression (.arguments 0) us args js)
      (hr : r.kind = .symbol .rightParen) :
      Expression (.ranked .call) (ts ++ l :: us ++ [r]) (.call callee args r.pos) (is ++ js)
  | unary {op : UnaryOp} {t : Token} {ts : List Token} {arg : RawExpr} {is : List Issue}
      (ht : t.kind = .symbol op.symbol) (right : Expression (.ranked .unary) ts arg is) :
      Expression (.ranked .unary) (t :: ts) (.unary op t.pos arg) is
  | binary {op : BinaryOp} {ts us : List Token} {t : Token} {lhs rhs : RawExpr}
      {is js : List Issue} (left : Expression (.ranked (.ofBinary op)) ts lhs is)
      (ht : t.kind = .symbol op.symbol)
      (right : Expression (.ranked (Rank.ofBinary op).tighter) us rhs js) :
      Expression (.ranked (.ofBinary op)) (ts ++ t :: us) (.binary op t.pos lhs rhs) (is ++ js)
  | logical {op : LogicalOp} {ts us : List Token} {t : Token} {lhs rhs : RawExpr}
      {is js : List Issue} (left : Expression (.ranked (.ofLogical op)) ts lhs is)
      (ht : t.kind = .keyword op.keyword)
      (right : Expression (.ranked (Rank.ofLogical op).tighter) us rhs js) :
      Expression (.ranked (.ofLogical op)) (ts ++ t :: us) (.logical op t.pos lhs rhs) (is ++ js)
  | assignVar {ts us : List Token} {t : Token} {target : Reference Unit} {value : RawExpr}
      {is js : List Issue} (left : Expression (.ranked .disjunction) ts (.var target) is)
      (ht : t.kind = .symbol .equal) (right : Expression (.ranked .assignment) us value js) :
      Expression (.ranked .assignment) (ts ++ t :: us) (.assign target value) (is ++ js)
  | assignField {ts us : List Token} {t : Token} {object : RawExpr} {field : Name}
      {value : RawExpr} {is js : List Issue}
      (left : Expression (.ranked .disjunction) ts (.get object field) is)
      (ht : t.kind = .symbol .equal) (right : Expression (.ranked .assignment) us value js) :
      Expression (.ranked .assignment) (ts ++ t :: us) (.set object field value) (is ++ js)
  | assignOther {ts us : List Token} {t : Token} {target value : RawExpr} {is js : List Issue}
      (left : Expression (.ranked .disjunction) ts target is)
      (hv : ∀ reference, target ≠ .var reference) (hg : ∀ object field, target ≠ .get object field)
      (ht : t.kind = .symbol .equal) (right : Expression (.ranked .assignment) us value js) :
      Expression (.ranked .assignment) (ts ++ t :: us) target
        (is ++ js ++ [.atToken t .invalidTarget])
  | last {count : Nat} {ts : List Token} {e : RawExpr} {is : List Issue}
      (item : Expression (.ranked .assignment) ts e is) :
      Expression (.arguments count) ts [e] (excess "arguments" count ts ++ is)
  | more {count : Nat} {ts us : List Token} {comma : Token} {e : RawExpr} {es : List RawExpr}
      {is js : List Issue} (item : Expression (.ranked .assignment) ts e is)
      (hc : comma.kind = .symbol .comma) (rest : Expression (.arguments (count + 1)) us es js) :
      Expression (.arguments count) (ts ++ comma :: us) (e :: es)
        (excess "arguments" count ts ++ is ++ js)

/-- Whether a token of a kind can start an expression. -/
def startsExpression : Kind → Bool
  | .symbol .leftParen | .symbol .bang | .symbol .minus => true
  | .keyword .nil | .keyword .true | .keyword .false | .keyword .this | .keyword .super => true
  | .identifier | .string | .number => true
  | _ => false

theorem startsExpression_of_literal {t : Token} {value : Literal} (h : literalOf? t = some value) :
    startsExpression t.kind = true := by
  unfold literalOf? Token.literal? at h
  split at h
  · simp [startsExpression, *]
  · simp [startsExpression, *]
  · simp [startsExpression, *]
  · split at h
    · simp [startsExpression, *]
    · simp [startsExpression, *]
    · exact absurd h (by simp)

/-- An expression has a first token, and it is one of those that start expressions. -/
theorem Expression.starts {sort : ExpressionSort} {ts : List Token} {tree : sort.Tree}
    {is : List Issue} (h : Expression sort ts tree is) :
    ∃ t us, ts = t :: us ∧ startsExpression t.kind = true := by
  induction h with
  | tighter _ ih => exact ih
  | literal ht => exact ⟨_, _, rfl, startsExpression_of_literal ht⟩
  | this ht => exact ⟨_, _, rfl, by rw [ht]; rfl⟩
  | var ht => exact ⟨_, _, rfl, by rw [ht]; rfl⟩
  | super ht _ _ => exact ⟨_, _, rfl, by rw [ht]; rfl⟩
  | grouping hl _ _ _ => exact ⟨_, _, rfl, by rw [hl]; rfl⟩
  | get _ _ _ ih =>
    obtain ⟨t, us, rfl, ht⟩ := ih
    exact ⟨t, _, rfl, ht⟩
  | callNone _ _ _ ih =>
    obtain ⟨t, us, rfl, ht⟩ := ih
    exact ⟨t, _, rfl, ht⟩
  | call _ _ _ _ ih _ =>
    obtain ⟨t, us, rfl, ht⟩ := ih
    exact ⟨t, _, rfl, ht⟩
  | @unary op _ _ _ _ ht _ _ => exact ⟨_, _, rfl, by rw [ht]; cases op <;> rfl⟩
  | binary _ _ _ ih _ =>
    obtain ⟨t, us, rfl, ht⟩ := ih
    exact ⟨t, _, rfl, ht⟩
  | logical _ _ _ ih _ =>
    obtain ⟨t, us, rfl, ht⟩ := ih
    exact ⟨t, _, rfl, ht⟩
  | assignVar _ _ _ ih _ =>
    obtain ⟨t, us, rfl, ht⟩ := ih
    exact ⟨t, _, rfl, ht⟩
  | assignField _ _ _ ih _ =>
    obtain ⟨t, us, rfl, ht⟩ := ih
    exact ⟨t, _, rfl, ht⟩
  | assignOther _ _ _ _ _ ih _ =>
    obtain ⟨t, us, rfl, ht⟩ := ih
    exact ⟨t, _, rfl, ht⟩
  | last _ ih => exact ih
  | more _ _ _ ih _ =>
    obtain ⟨t, us, rfl, ht⟩ := ih
    exact ⟨t, _, rfl, ht⟩

/-! ## Parts of statements -/

/-- An expression that may be missing. -/
inductive OptionalExpression : List Token → Option RawExpr → List Issue → Prop
  | absent : OptionalExpression [] none []
  | present {ts : List Token} {e : RawExpr} {is : List Issue}
      (he : Expression (.ranked .assignment) ts e is) : OptionalExpression ts (some e) is

/-- An expression as a statement. -/
inductive ExpressionStatement : List Token → RawStmt → List Issue → Prop
  | mk {ts : List Token} {e : RawExpr} {is : List Issue} {semi : Token}
      (he : Expression (.ranked .assignment) ts e is) (hs : semi.kind = .symbol .semicolon) :
      ExpressionStatement (ts ++ [semi]) (.expression e) is

/-- A variable declaration, behind its keyword. -/
inductive VariableDeclaration : List Token → RawStmt → List Issue → Prop
  | bare {name semi : Token} (hn : name.kind = .identifier) (hs : semi.kind = .symbol .semicolon) :
      VariableDeclaration [name, semi] (.var (nameOf name) none) []
  | initialized {name equals semi : Token} {ts : List Token} {e : RawExpr} {is : List Issue}
      (hn : name.kind = .identifier) (hq : equals.kind = .symbol .equal)
      (he : Expression (.ranked .assignment) ts e is) (hs : semi.kind = .symbol .semicolon) :
      VariableDeclaration (name :: equals :: ts ++ [semi]) (.var (nameOf name) (some e)) is

/-- The first clause of a for statement, with its semicolon. -/
inductive Initializer : List Token → Option RawStmt → List Issue → Prop
  | absent {semi : Token} (hs : semi.kind = .symbol .semicolon) : Initializer [semi] none []
  | var {t : Token} {ts : List Token} {stmt : RawStmt} {is : List Issue}
      (ht : t.kind = .keyword .var) (hd : VariableDeclaration ts stmt is) :
      Initializer (t :: ts) (some stmt) is
  | expression {ts : List Token} {stmt : RawStmt} {is : List Issue}
      (he : ExpressionStatement ts stmt is) : Initializer ts (some stmt) is

/-- Parameters, of which there is at least one, and before which `count` others stand. -/
inductive Parameters : (count : Nat) → List Token → List Name → List Issue → Prop
  | last {count : Nat} {name : Token} (hn : name.kind = .identifier) :
      Parameters count [name] [nameOf name] (excess "parameters" count [name])
  | more {count : Nat} {name comma : Token} {ts : List Token} {names : List Name}
      {is : List Issue} (hn : name.kind = .identifier) (hc : comma.kind = .symbol .comma)
      (rest : Parameters (count + 1) ts names is) :
      Parameters count (name :: comma :: ts) (nameOf name :: names)
        (excess "parameters" count [name] ++ is)

/-- Parameters, of which there may be none. -/
inductive OptionalParameters : List Token → List Name → List Issue → Prop
  | absent : OptionalParameters [] [] []
  | present {ts : List Token} {names : List Name} {is : List Issue}
      (hp : Parameters 0 ts names is) : OptionalParameters ts names is

/-- The superclass of a class, if it names one. -/
inductive Superclass : List Token → Option (Reference Unit) → Prop
  | absent : Superclass [] none
  | present {less name : Token} (hl : less.kind = .symbol .less) (hn : name.kind = .identifier) :
      Superclass [less, name] (some (referenceAt name))

/-! ## Statements -/

/-- What is derived: a statement or a declaration, dangling or not, declarations, a function from
its name on, or methods. -/
inductive PhraseSort where
  | statement (dangling : Bool)
  | declaration (dangling : Bool)
  | declarations
  | function
  | methods

/-- The trees of a sort. -/
abbrev PhraseSort.Tree : PhraseSort → Type
  | statement _ => RawStmt
  | declaration _ => RawStmt
  | declarations => List RawStmt
  | function => Function Unit
  | methods => List (Function Unit)

/-- The rules of statements and declarations. -/
inductive Phrase : (sort : PhraseSort) → List Token → sort.Tree → List Issue → Prop
  | expression {ts : List Token} {stmt : RawStmt} {is : List Issue}
      (he : ExpressionStatement ts stmt is) : Phrase (.statement false) ts stmt is
  | print {t semi : Token} {ts : List Token} {e : RawExpr} {is : List Issue}
      (ht : t.kind = .keyword .print) (he : Expression (.ranked .assignment) ts e is)
      (hs : semi.kind = .symbol .semicolon) :
      Phrase (.statement false) (t :: ts ++ [semi]) (.print e) is
  | giveBack {t semi : Token} {ts : List Token} {value : Option RawExpr} {is : List Issue}
      (ht : t.kind = .keyword .return) (hv : OptionalExpression ts value is)
      (hs : semi.kind = .symbol .semicolon) :
      Phrase (.statement false) (t :: ts ++ [semi]) (.giveBack t.pos value) is
  | block {l r : Token} {ts : List Token} {body : List RawStmt} {is : List Issue}
      (hl : l.kind = .symbol .leftBrace) (hb : Phrase .declarations ts body is)
      (hr : r.kind = .symbol .rightBrace) :
      Phrase (.statement false) (l :: ts ++ [r]) (.block body) is
  | ifThen {t l r : Token} {ts us : List Token} {condition : RawExpr} {thenPart : RawStmt}
      {is js : List Issue} {dangling : Bool} (ht : t.kind = .keyword .if)
      (hl : l.kind = .symbol .leftParen) (hc : Expression (.ranked .assignment) ts condition is)
      (hr : r.kind = .symbol .rightParen) (hp : Phrase (.statement dangling) us thenPart js) :
      Phrase (.statement true) (t :: l :: ts ++ r :: us) (.ifThen condition thenPart) (is ++ js)
  | ifElse {t l r other : Token} {ts us vs : List Token} {condition : RawExpr}
      {thenPart elsePart : RawStmt} {is js ks : List Issue} {dangling : Bool}
      (ht : t.kind = .keyword .if) (hl : l.kind = .symbol .leftParen)
      (hc : Expression (.ranked .assignment) ts condition is) (hr : r.kind = .symbol .rightParen)
      (hp : Phrase (.statement false) us thenPart js) (ho : other.kind = .keyword .else)
      (he : Phrase (.statement dangling) vs elsePart ks) :
      Phrase (.statement dangling) (t :: l :: ts ++ r :: us ++ other :: vs)
        (.ifElse condition thenPart elsePart) (is ++ js ++ ks)
  | whileDo {t l r : Token} {ts us : List Token} {condition : RawExpr} {body : RawStmt}
      {is js : List Issue} {dangling : Bool} (ht : t.kind = .keyword .while)
      (hl : l.kind = .symbol .leftParen) (hc : Expression (.ranked .assignment) ts condition is)
      (hr : r.kind = .symbol .rightParen) (hb : Phrase (.statement dangling) us body js) :
      Phrase (.statement dangling) (t :: l :: ts ++ r :: us) (.whileDo condition body) (is ++ js)
  | forDo {t l semi r : Token} {ts us vs ws : List Token} {initializer : Option RawStmt}
      {condition increment : Option RawExpr} {body : RawStmt} {is js ks ls : List Issue}
      {dangling : Bool} (ht : t.kind = .keyword .for) (hl : l.kind = .symbol .leftParen)
      (hi : Initializer ts initializer is) (hc : OptionalExpression us condition js)
      (hs : semi.kind = .symbol .semicolon) (hn : OptionalExpression vs increment ks)
      (hr : r.kind = .symbol .rightParen) (hb : Phrase (.statement dangling) ws body ls) :
      Phrase (.statement dangling) (t :: l :: ts ++ us ++ semi :: vs ++ r :: ws)
        (forLoop t.pos initializer condition increment body) (is ++ js ++ ks ++ ls)
  | statement {ts : List Token} {stmt : RawStmt} {is : List Issue} {dangling : Bool}
      (hs : Phrase (.statement dangling) ts stmt is) : Phrase (.declaration dangling) ts stmt is
  | varDecl {t : Token} {ts : List Token} {stmt : RawStmt} {is : List Issue}
      (ht : t.kind = .keyword .var) (hd : VariableDeclaration ts stmt is) :
      Phrase (.declaration false) (t :: ts) stmt is
  | function {t : Token} {ts : List Token} {f : Function Unit} {is : List Issue}
      (ht : t.kind = .keyword .fun) (hf : Phrase .function ts f is) :
      Phrase (.declaration false) (t :: ts) (.function f) is
  | classDecl {t name l r : Token} {ts us : List Token} {superclass : Option (Reference Unit)}
      {methods : List (Function Unit)} {is : List Issue} (ht : t.kind = .keyword .class)
      (hn : name.kind = .identifier) (hs : Superclass ts superclass)
      (hl : l.kind = .symbol .leftBrace) (hm : Phrase .methods us methods is)
      (hr : r.kind = .symbol .rightBrace) :
      Phrase (.declaration false) (t :: name :: ts ++ l :: us ++ [r])
        (.classDecl (nameOf name) superclass methods) is
  | routine {name l r lb rb : Token} {ts us : List Token} {params : List Name}
      {body : List RawStmt} {is js : List Issue} (hn : name.kind = .identifier)
      (hl : l.kind = .symbol .leftParen) (hp : OptionalParameters ts params is)
      (hr : r.kind = .symbol .rightParen) (hlb : lb.kind = .symbol .leftBrace)
      (hb : Phrase .declarations us body js) (hrb : rb.kind = .symbol .rightBrace) :
      Phrase .function (name :: l :: ts ++ r :: lb :: us ++ [rb]) (.mk (nameOf name) params body)
        (is ++ js)
  | noDeclarations : Phrase .declarations [] [] []
  | declarations {ts us : List Token} {stmt : RawStmt} {stmts : List RawStmt} {is js : List Issue}
      {dangling : Bool} (first : Phrase (.declaration dangling) ts stmt is)
      (rest : Phrase .declarations us stmts js) :
      Phrase .declarations (ts ++ us) (stmt :: stmts) (is ++ js)
  | noMethods : Phrase .methods [] [] []
  | methods {ts us : List Token} {f : Function Unit} {fs : List (Function Unit)}
      {is js : List Issue} (first : Phrase .function ts f is) (rest : Phrase .methods us fs js) :
      Phrase .methods (ts ++ us) (f :: fs) (is ++ js)

end LoxKit.Grammar
