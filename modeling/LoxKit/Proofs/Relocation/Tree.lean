import LoxKit.Proofs.Grammar.Statements

/-!
# Moving tokens

What a text means does not depend on where its tokens are. If each token is moved to another place,
the same rules derive the same tree, whose places are moved in the same way, and the same issues,
each at its new place.

Headlines:
* `Expr.move`, `Stmt.move`, `Function.move`: a tree with its places moved.
* **`Phrase.move`**: what is derived from tokens that are moved.
* `Phrase.append`: declarations behind declarations.
-/

namespace LoxKit

/-! ## Trees -/

section Trees

variable {ρ : Type} (f : Pos → Pos)

/-- A token at another place. -/
def Token.move (t : Token) : Token :=
  { t with pos := f t.pos }

/-- A name at another place. -/
def Name.move (n : Name) : Name :=
  { n with pos := f n.pos }

/-- A reference at another place. -/
def Reference.move (r : Reference ρ) : Reference ρ :=
  { r with name := r.name.move f }

/-- An issue at another place. -/
def Issue.move (i : Issue) : Issue :=
  { i with pos := f i.pos }

/-- An expression with its places moved. -/
def Expr.move : Expr ρ → Expr ρ
  | .literal value token => .literal value (token.move f)
  | .grouping inner => .grouping inner.move
  | .unary op pos arg => .unary op (f pos) arg.move
  | .binary op pos lhs rhs => .binary op (f pos) lhs.move rhs.move
  | .logical op pos lhs rhs => .logical op (f pos) lhs.move rhs.move
  | .var target => .var (target.move f)
  | .assign target value => .assign (target.move f) value.move
  | .call callee args paren => .call callee.move (args.map Expr.move) (f paren)
  | .get object field => .get object.move (field.move f)
  | .set object field value => .set object.move (field.move f) value.move
  | .this target => .this (target.move f)
  | .super target method => .super (target.move f) (method.move f)

mutual

/-- A statement with its places moved. -/
def Stmt.move : Stmt ρ → Stmt ρ
  | .expression e => .expression (e.move f)
  | .print e => .print (e.move f)
  | .var name initializer => .var (name.move f) (initializer.map (Expr.move f))
  | .block body => .block (body.map Stmt.move)
  | .ifThen condition thenPart => .ifThen (condition.move f) thenPart.move
  | .ifElse condition thenPart elsePart => .ifElse (condition.move f) thenPart.move elsePart.move
  | .whileDo condition body => .whileDo (condition.move f) body.move
  | .function g => .function g.move
  | .giveBack keyword value => .giveBack (f keyword) (value.map (Expr.move f))
  | .classDecl name superclass methods =>
    .classDecl (name.move f) (superclass.map (Reference.move f)) (methods.map Function.move)

/-- A function with its places moved. -/
def Function.move : Function ρ → Function ρ
  | .mk name params body => .mk (name.move f) (params.map (Name.move f)) (body.map Stmt.move)

end

variable {f}

@[simp]
theorem Token.move_kind (t : Token) : (t.move f).kind = t.kind := rfl

@[simp]
theorem Name.move_text (n : Name) : (n.move f).text = n.text := rfl

@[simp]
theorem Reference.move_text (r : Reference ρ) : (r.move f).name.text = r.name.text := rfl

@[simp]
theorem Function.move_name (g : Function ρ) : (g.move f).name = g.name.move f := by
  obtain ⟨name, params, body⟩ := g
  rw [Function.move]
  rfl

@[simp]
theorem Function.move_params (g : Function ρ) : (g.move f).params = g.params.map (Name.move f) := by
  obtain ⟨name, params, body⟩ := g
  rw [Function.move]
  rfl

@[simp]
theorem Function.move_body (g : Function ρ) : (g.move f).body = g.body.map (Stmt.move f) := by
  obtain ⟨name, params, body⟩ := g
  rw [Function.move]
  rfl

theorem Issue.atToken_move (t : Token) (complaint : Complaint) :
    Issue.atToken (t.move f) complaint = (Issue.atToken t complaint).move f := by
  unfold Issue.atToken
  rw [Token.move_kind]
  split <;> rfl

end Trees

/-! ## Derivations -/

namespace Grammar

variable {f : Pos → Pos}

/-- A tree of a sort with its places moved. -/
def ExpressionSort.move (f : Pos → Pos) : (sort : ExpressionSort) → sort.Tree → sort.Tree
  | .ranked _, e => Expr.move f e
  | .arguments _, es => es.map (Expr.move f)

theorem excess_move (what : String) (count : Nat) (ts : List Token) :
    excess what count (ts.map (Token.move f)) = (excess what count ts).map (Issue.move f) := by
  unfold excess
  split
  · cases ts with
    | nil => rfl
    | cons t ts => exact congrArg (fun i => [i]) (Issue.atToken_move t _)
  · rfl

/-- What is derived from tokens that are moved. -/
theorem Expression.move {sort : ExpressionSort} {ts : List Token} {tree : sort.Tree}
    {is : List Issue} (h : Expression sort ts tree is) :
    Expression sort (ts.map (Token.move f)) (sort.move f tree) (is.map (Issue.move f)) := by
  induction h with
  | tighter _ ih => exact .tighter ih
  | literal ht =>
    simp only [ExpressionSort.move, Expr.move]
    exact .literal ht
  | this ht =>
    simp only [ExpressionSort.move, Expr.move]
    exact .this ht
  | var ht =>
    simp only [ExpressionSort.move, Expr.move]
    exact .var ht
  | super ht hd hm =>
    simp only [ExpressionSort.move, Expr.move]
    exact .super ht hd hm
  | grouping hl _ hr ih =>
    simp only [ExpressionSort.move, Expr.move, List.cons_append, List.map_cons, List.map_append]
    exact .grouping hl ih hr
  | get _ hd hf ih =>
    simp only [ExpressionSort.move, Expr.move, List.map_append]
    exact .get ih hd hf
  | callNone _ hl hr ih =>
    simp only [ExpressionSort.move, Expr.move, List.map_append]
    exact .callNone ih hl hr
  | call _ hl _ hr ih ih' =>
    simp only [ExpressionSort.move, Expr.move, List.map_append, List.map_cons]
    exact .call ih hl ih' hr
  | unary ht _ ih =>
    simp only [ExpressionSort.move, Expr.move, List.map_cons]
    exact .unary ht ih
  | binary _ ht _ ih ih' =>
    simp only [ExpressionSort.move, Expr.move, List.map_append, List.map_cons]
    exact .binary ih ht ih'
  | logical _ ht _ ih ih' =>
    simp only [ExpressionSort.move, Expr.move, List.map_append, List.map_cons]
    exact .logical ih ht ih'
  | assignVar _ ht _ ih ih' =>
    simp only [ExpressionSort.move, Expr.move, List.map_append, List.map_cons] at ih ⊢
    exact .assignVar ih ht ih'
  | assignField _ ht _ ih ih' =>
    simp only [ExpressionSort.move, Expr.move, List.map_append, List.map_cons] at ih ⊢
    exact .assignField ih ht ih'
  | @assignOther ts us t target value is js left hv hg ht right ih ih' =>
    simp only [ExpressionSort.move, List.map_append, List.map_cons, List.map_nil,
      ← Issue.atToken_move] at ih ⊢
    refine .assignOther ih (fun reference he => ?_) (fun object field he => ?_) ht ih'
    · cases target with
      | var r => exact hv r rfl
      | _ => exact absurd he (by simp [Expr.move])
    · cases target with
      | get o n => exact hg o n rfl
      | _ => exact absurd he (by simp [Expr.move])
  | last _ ih =>
    simp only [ExpressionSort.move, List.map_append, List.map_cons, List.map_nil, ← excess_move]
    exact .last ih
  | more _ hc _ ih ih' =>
    simp only [ExpressionSort.move, List.map_append, List.map_cons, ← excess_move]
    exact .more ih hc ih'

section Parts

variable {ts : List Token} {is : List Issue}

theorem OptionalExpression.move {e : Option RawExpr} (h : OptionalExpression ts e is) :
    OptionalExpression (ts.map (Token.move f)) (e.map (Expr.move f)) (is.map (Issue.move f)) := by
  cases h with
  | absent => exact .absent
  | present he => exact .present he.move

theorem ExpressionStatement.move {stmt : RawStmt} (h : ExpressionStatement ts stmt is) :
    ExpressionStatement (ts.map (Token.move f)) (stmt.move f) (is.map (Issue.move f)) := by
  cases h with
  | mk he hs =>
    simp only [Stmt.move, List.map_append]
    exact .mk he.move hs

theorem VariableDeclaration.move {stmt : RawStmt} (h : VariableDeclaration ts stmt is) :
    VariableDeclaration (ts.map (Token.move f)) (stmt.move f) (is.map (Issue.move f)) := by
  cases h with
  | bare hn hs =>
    simp only [Stmt.move]
    exact .bare hn hs
  | initialized hn hq he hs =>
    simp only [Stmt.move, List.cons_append, List.map_append, List.map_cons]
    exact .initialized hn hq he.move hs

theorem Initializer.move {stmt : Option RawStmt} (h : Initializer ts stmt is) :
    Initializer (ts.map (Token.move f)) (stmt.map (Stmt.move f)) (is.map (Issue.move f)) := by
  cases h with
  | absent hs => exact .absent hs
  | var ht hd => exact .var ht hd.move
  | expression he => exact .expression he.move

theorem Parameters.move {count : Nat} {names : List Name} (h : Parameters count ts names is) :
    Parameters count (ts.map (Token.move f)) (names.map (Name.move f)) (is.map (Issue.move f)) := by
  induction h with
  | @last count name hn =>
    rw [← excess_move]
    exact .last hn
  | @more count name comma ts names is hn hc _ ih =>
    rw [List.map_append, ← excess_move]
    exact .more hn hc ih

theorem OptionalParameters.move {names : List Name} (h : OptionalParameters ts names is) :
    OptionalParameters (ts.map (Token.move f)) (names.map (Name.move f)) (is.map (Issue.move f)) := by
  cases h with
  | absent => exact .absent
  | present hp => exact .present hp.move

theorem Superclass.move {superclass : Option (Reference Unit)} (h : Superclass ts superclass) :
    Superclass (ts.map (Token.move f)) (superclass.map (Reference.move f)) := by
  cases h with
  | absent => exact .absent
  | present hl hn => exact .present hl hn

end Parts

theorem forLoop_move (keyword : Pos) (initializer : Option RawStmt)
    (condition increment : Option RawExpr) (body : RawStmt) :
    (forLoop keyword initializer condition increment body).move f =
      forLoop (f keyword) (initializer.map (Stmt.move f)) (condition.map (Expr.move f))
        (increment.map (Expr.move f)) (body.move f) := by
  cases initializer <;> cases condition <;> cases increment <;>
    simp [forLoop, Stmt.move, alwaysTrue, Expr.move, Token.move, Keyword.token]

/-- A tree of a sort with its places moved. -/
def PhraseSort.move (f : Pos → Pos) : (sort : PhraseSort) → sort.Tree → sort.Tree
  | .statement _, stmt => Stmt.move f stmt
  | .declaration _, stmt => Stmt.move f stmt
  | .declarations, stmts => stmts.map (Stmt.move f)
  | .function, g => Function.move f g
  | .methods, gs => gs.map (Function.move f)

/-- **What is derived from tokens that are moved.** -/
theorem Phrase.move {sort : PhraseSort} {ts : List Token} {tree : sort.Tree} {is : List Issue}
    (h : Phrase sort ts tree is) :
    Phrase sort (ts.map (Token.move f)) (sort.move f tree) (is.map (Issue.move f)) := by
  induction h with
  | expression he => exact .expression he.move
  | print ht he hs =>
    simp only [PhraseSort.move, Stmt.move, List.cons_append, List.map_append, List.map_cons]
    exact .print ht he.move hs
  | giveBack ht hv hs =>
    simp only [PhraseSort.move, Stmt.move, List.cons_append, List.map_append, List.map_cons]
    exact .giveBack ht hv.move hs
  | block hl _ hr ih =>
    simp only [PhraseSort.move, Stmt.move, List.cons_append, List.map_append, List.map_cons]
    exact .block hl ih hr
  | ifThen ht hl hc hr _ ih =>
    simp only [PhraseSort.move, Stmt.move, List.cons_append, List.map_append, List.map_cons]
    exact .ifThen ht hl hc.move hr ih
  | ifElse ht hl hc hr _ ho _ ih ih' =>
    simp only [PhraseSort.move, Stmt.move, List.cons_append, List.map_append, List.map_cons]
    exact .ifElse ht hl hc.move hr ih ho ih'
  | whileDo ht hl hc hr _ ih =>
    simp only [PhraseSort.move, Stmt.move, List.cons_append, List.map_append, List.map_cons]
    exact .whileDo ht hl hc.move hr ih
  | forDo ht hl hi hc hs hn hr _ ih =>
    simp only [PhraseSort.move, forLoop_move, List.cons_append, List.map_append, List.map_cons]
    exact .forDo ht hl hi.move hc.move hs hn.move hr ih
  | statement _ ih => exact .statement ih
  | varDecl ht hd => exact .varDecl ht hd.move
  | function ht _ ih =>
    simp only [PhraseSort.move, Stmt.move, List.map_cons]
    exact .function ht ih
  | classDecl ht hn hs hl _ hr ih =>
    simp only [PhraseSort.move, Stmt.move, List.cons_append, List.map_append, List.map_cons]
    exact .classDecl ht hn hs.move hl ih hr
  | routine hn hl hp hr hlb _ hrb ih =>
    simp only [PhraseSort.move, Function.move, List.cons_append, List.map_append, List.map_cons]
    exact .routine hn hl hp.move hr hlb ih hrb
  | noDeclarations => exact .noDeclarations
  | declarations _ _ ih ih' =>
    simp only [PhraseSort.move, List.map_append, List.map_cons]
    exact .declarations ih ih'
  | noMethods => exact .noMethods
  | methods _ _ ih ih' =>
    simp only [PhraseSort.move, List.map_append, List.map_cons]
    exact .methods ih ih'

/-- Declarations behind declarations. -/
theorem Phrase.append {ts us : List Token} {stmts stmts' : List RawStmt} {is js : List Issue}
    (h : Phrase .declarations ts stmts is) (h' : Phrase .declarations us stmts' js) :
    Phrase .declarations (ts ++ us) (stmts ++ stmts') (is ++ js) := by
  induction stmts generalizing ts is with
  | nil =>
    cases h with
    | noDeclarations => exact h'
  | cons stmt stmts ih =>
    cases h with
    | declarations first rest =>
      rw [List.append_assoc, List.cons_append, List.append_assoc]
      exact .declarations first (ih rest)

end Grammar

end LoxKit
