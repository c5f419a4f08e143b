import LoxKit.Proofs.Grammar.Statements

/-!
# Proper trees

The trees that reading a text can give. In a proper tree every name that is declared, read or
assigned is plain, which means that it is no keyword; `this` and `super` go by their own names; and
what an `if` or a loop guards declares nothing in the scope around it.

Headlines:
* `Expr.Proper`, `Stmt.Proper`: the trees.
* `worded_ofText`: how the tokens of a text are written.
* `Phrase.proper`: the tree of a derivation from such tokens is proper.
* `proper_parse`: so are the statements of a text without issues.
-/

namespace LoxKit

/-- A name that is no keyword. -/
def Plain (w : String) : Prop :=
  Keyword.ofWord? w = none

instance (w : String) : Decidable (Plain w) :=
  inferInstanceAs (Decidable (_ = _))

theorem Plain.ne_word {w : String} (h : Plain w) (k : Keyword) : w ≠ k.word := by
  rintro rfl
  have hk := k.ofWord?_word
  rw [h] at hk
  exact absurd hk (by simp)

/-! ## Trees -/

/-- The names that a statement declares in the scope that it stands in. -/
def Stmt.declares {ρ : Type} : Stmt ρ → List String
  | .var name _ => [name.text]
  | .function f => [f.name.text]
  | .classDecl name _ _ => [name.text]
  | _ => []

/-- The expressions that reading can give. -/
inductive Expr.Proper {ρ : Type} : Expr ρ → Prop
  | literal (value : Literal) (token : Token) : Proper (.literal value token)
  | grouping {inner : Expr ρ} (h : Proper inner) : Proper (.grouping inner)
  | unary {arg : Expr ρ} (op : UnaryOp) (pos : Pos) (h : Proper arg) : Proper (.unary op pos arg)
  | binary {lhs rhs : Expr ρ} (op : BinaryOp) (pos : Pos) (hl : Proper lhs) (hr : Proper rhs) :
      Proper (.binary op pos lhs rhs)
  | logical {lhs rhs : Expr ρ} (op : LogicalOp) (pos : Pos) (hl : Proper lhs) (hr : Proper rhs) :
      Proper (.logical op pos lhs rhs)
  | var {target : Reference ρ} (h : Plain target.name.text) : Proper (.var target)
  | assign {target : Reference ρ} {value : Expr ρ} (h : Plain target.name.text)
      (hv : Proper value) : Proper (.assign target value)
  | call {callee : Expr ρ} {args : List (Expr ρ)} (paren : Pos) (hc : Proper callee)
      (ha : ∀ a ∈ args, Proper a) : Proper (.call callee args paren)
  | get {object : Expr ρ} (field : Name) (h : Proper object) : Proper (.get object field)
  | set {object value : Expr ρ} (field : Name) (ho : Proper object) (hv : Proper value) :
      Proper (.set object field value)
  | this {target : Reference ρ} (h : target.name.text = Keyword.this.word) : Proper (.this target)
  | super {target : Reference ρ} (method : Name) (h : target.name.text = Keyword.super.word) :
      Proper (.super target method)

mutual

/-- The statements that reading can give. -/
inductive Stmt.Proper {ρ : Type} : Stmt ρ → Prop
  | expression {e : Expr ρ} (h : e.Proper) : Stmt.Proper (.expression e)
  | print {e : Expr ρ} (h : e.Proper) : Stmt.Proper (.print e)
  | var {name : Name} {initializer : Option (Expr ρ)} (hn : Plain name.text)
      (hi : ∀ e, initializer = some e → e.Proper) : Stmt.Proper (.var name initializer)
  | block {body : List (Stmt ρ)} (h : ∀ stmt ∈ body, Stmt.Proper stmt) : Stmt.Proper (.block body)
  | ifThen {condition : Expr ρ} {thenPart : Stmt ρ} (hc : condition.Proper)
      (ht : Stmt.Proper thenPart) (hd : thenPart.declares = []) :
      Stmt.Proper (.ifThen condition thenPart)
  | ifElse {condition : Expr ρ} {thenPart elsePart : Stmt ρ} (hc : condition.Proper)
      (ht : Stmt.Proper thenPart) (hd : thenPart.declares = []) (he : Stmt.Proper elsePart)
      (hd' : elsePart.declares = []) : Stmt.Proper (.ifElse condition thenPart elsePart)
  | whileDo {condition : Expr ρ} {body : Stmt ρ} (hc : condition.Proper) (hb : Stmt.Proper body)
      (hd : body.declares = []) : Stmt.Proper (.whileDo condition body)
  | function {f : Function ρ} (h : Function.Proper f) : Stmt.Proper (.function f)
  | giveBack {value : Option (Expr ρ)} (keyword : Pos) (hv : ∀ e, value = some e → e.Proper) :
      Stmt.Proper (.giveBack keyword value)
  | classDecl {name : Name} {superclass : Option (Reference ρ)} {methods : List (Function ρ)}
      (hn : Plain name.text) (hs : ∀ r, superclass = some r → Plain r.name.text)
      (hm : ∀ f ∈ methods, Function.Proper f) : Stmt.Proper (.classDecl name superclass methods)

/-- The functions that reading can give. -/
inductive Function.Proper {ρ : Type} : Function ρ → Prop
  | mk {name : Name} {params : List Name} {body : List (Stmt ρ)} (hn : Plain name.text)
      (hp : ∀ p ∈ params, Plain p.text) (hb : ∀ stmt ∈ body, Stmt.Proper stmt) :
      Function.Proper (.mk name params body)

end

theorem Function.Proper.plain_name {ρ : Type} {f : Function ρ} (h : f.Proper) :
    Plain f.name.text := by
  cases h with
  | mk hn _ _ => exact hn

theorem Function.Proper.plain_params {ρ : Type} {f : Function ρ} (h : f.Proper) :
    ∀ p ∈ f.params, Plain p.text := by
  cases h with
  | mk _ hp _ => exact hp

theorem Function.Proper.proper_body {ρ : Type} {f : Function ρ} (h : f.Proper) :
    ∀ stmt ∈ f.body, stmt.Proper := by
  cases h with
  | mk _ _ hb => exact hb

/-- The names that a statement declares are plain. -/
theorem Stmt.Proper.plain_declares {ρ : Type} {stmt : Stmt ρ} (h : stmt.Proper) :
    ∀ n ∈ stmt.declares, Plain n := by
  cases h with
  | var hn _ => exact List.forall_mem_singleton.mpr hn
  | function hf => exact List.forall_mem_singleton.mpr hf.plain_name
  | classDecl hn _ _ => exact List.forall_mem_singleton.mpr hn
  | expression | print | block | ifThen | ifElse | whileDo | giveBack =>
    exact fun _ h => absurd h List.not_mem_nil

/-! ## Tokens -/

/-- A token is written as its kind says: a keyword as its word, an identifier as no keyword. -/
def Token.Worded (t : Token) : Prop :=
  (∀ k, t.kind = .keyword k → t.lexeme = k.word) ∧ (t.kind = .identifier → Plain t.lexeme)

theorem Piece.worded_of_token? {p : Piece} {start : Pos} {t : Token}
    (h : p.token? start = some t) : t.Worded := by
  obtain ⟨kind, hk, rfl⟩ := Option.map_eq_some_iff.mp h
  cases p with
  | word chars =>
    simp only [Piece.kind?] at hk
    split at hk
    · rename_i k hw
      cases hk
      refine ⟨fun k' hk' => ?_, fun hi => absurd hi (by simp)⟩
      cases hk'
      exact Keyword.eq_word_of_ofWord? hw
    · rename_i hw
      cases hk
      exact ⟨fun k' hk' => absurd hk' (by simp), fun _ => hw⟩
  | string | number | symbol =>
    cases hk
    exact ⟨fun k' hk' => absurd hk' (by simp), fun hi => absurd hi (by simp)⟩
  | blank | newline | lineComment | blockComment | openString | stray =>
    exact absurd hk (by simp [Piece.kind?])

theorem Tokens.worded_ofPieces (start : Pos) (ps : List Piece) :
    ∀ t ∈ (Tokens.ofPieces start ps).tokens, t.Worded := by
  induction ps generalizing start with
  | nil => exact fun t ht => absurd ht List.not_mem_nil
  | cons p ps ih =>
    intro t ht
    rcases List.mem_append.mp ht with h | h
    · exact Piece.worded_of_token? (Option.mem_toList.mp h)
    · exact ih _ t h

/-- The tokens of a text are written as their kinds say. -/
theorem Tokens.worded_ofText (text : String) : ∀ t ∈ (Tokens.ofText text).tokens, t.Worded :=
  Tokens.worded_ofPieces .start (pieces text.toList)

/-! ## Derivations -/

namespace Grammar

/-- Tokens all of which are written as their kinds say. -/
def Worded (ts : List Token) : Prop :=
  ∀ t ∈ ts, t.Worded

@[simp]
theorem worded_nil : Worded [] :=
  fun _ h => absurd h List.not_mem_nil

@[simp]
theorem worded_cons {t : Token} {ts : List Token} : Worded (t :: ts) ↔ t.Worded ∧ Worded ts :=
  List.forall_mem_cons

@[simp]
theorem worded_append {ts us : List Token} : Worded (ts ++ us) ↔ Worded ts ∧ Worded us :=
  List.forall_mem_append

/-- The proper trees of a sort of expressions. -/
def ProperTree : (sort : ExpressionSort) → sort.Tree → Prop
  | .ranked _, e => e.Proper
  | .arguments _, es => ∀ e ∈ es, e.Proper

theorem Expression.proper {sort : ExpressionSort} {ts : List Token} {tree : sort.Tree}
    {is : List Issue} (h : Expression sort ts tree is) (hw : Worded ts) : ProperTree sort tree := by
  induction h with
  | tighter _ ih => exact ih hw
  | literal => exact .literal _ _
  | this ht =>
    rw [worded_cons] at hw
    exact .this (hw.1.1 _ ht)
  | var ht =>
    rw [worded_cons] at hw
    exact .var (hw.1.2 ht)
  | super ht _ _ =>
    rw [worded_cons] at hw
    exact .super _ (hw.1.1 _ ht)
  | grouping _ _ _ ih =>
    simp only [worded_append, worded_cons] at hw
    exact .grouping (ih hw.1.2)
  | get _ _ _ ih =>
    rw [worded_append] at hw
    exact .get _ (ih hw.1)
  | callNone _ _ _ ih =>
    rw [worded_append] at hw
    exact .call _ (ih hw.1) fun _ h => absurd h List.not_mem_nil
  | call _ _ _ _ ih ihargs =>
    simp only [worded_append, worded_cons] at hw
    exact .call _ (ih hw.1.1) (ihargs hw.1.2.2)
  | unary _ _ ih =>
    rw [worded_cons] at hw
    exact .unary _ _ (ih hw.2)
  | binary _ _ _ ihl ihr =>
    simp only [worded_append, worded_cons] at hw
    exact .binary _ _ (ihl hw.1) (ihr hw.2.2)
  | logical _ _ _ ihl ihr =>
    simp only [worded_append, worded_cons] at hw
    exact .logical _ _ (ihl hw.1) (ihr hw.2.2)
  | assignVar _ _ _ ihl ihr =>
    simp only [worded_append, worded_cons] at hw
    cases ihl hw.1 with
    | var hv => exact .assign hv (ihr hw.2.2)
  | assignField _ _ _ ihl ihr =>
    simp only [worded_append, worded_cons] at hw
    cases ihl hw.1 with
    | get _ ho => exact .set _ ho (ihr hw.2.2)
  | assignOther _ _ _ _ _ ihl _ =>
    rw [worded_append] at hw
    exact ihl hw.1
  | last _ ih => exact List.forall_mem_singleton.mpr (ih hw)
  | more _ _ _ ih ihrest =>
    simp only [worded_append, worded_cons] at hw
    exact List.forall_mem_cons.mpr ⟨ih hw.1, ihrest hw.2.2⟩

theorem OptionalExpression.proper {ts : List Token} {e : Option RawExpr} {is : List Issue}
    (h : OptionalExpression ts e is) (hw : Worded ts) : ∀ e', e = some e' → e'.Proper := by
  cases h with
  | absent => exact fun _ h => absurd h (by simp)
  | present he =>
    rintro e' ⟨⟩
    exact he.proper hw

theorem ExpressionStatement.proper {ts : List Token} {stmt : RawStmt} {is : List Issue}
    (h : ExpressionStatement ts stmt is) (hw : Worded ts) : stmt.Proper ∧ stmt.declares = [] := by
  obtain ⟨he, -⟩ := h
  rw [worded_append] at hw
  exact ⟨.expression (he.proper hw.1), rfl⟩

theorem VariableDeclaration.proper {ts : List Token} {stmt : RawStmt} {is : List Issue}
    (h : VariableDeclaration ts stmt is) (hw : Worded ts) : stmt.Proper := by
  cases h with
  | bare hn _ =>
    rw [worded_cons] at hw
    exact .var (hw.1.2 hn) fun _ h => absurd h (by simp)
  | initialized hn _ he _ =>
    simp only [worded_append, worded_cons] at hw
    refine .var (hw.1.1.2 hn) ?_
    rintro e ⟨⟩
    exact he.proper hw.1.2.2

theorem Initializer.proper {ts : List Token} {stmt : Option RawStmt} {is : List Issue}
    (h : Initializer ts stmt is) (hw : Worded ts) : ∀ st, stmt = some st → st.Proper := by
  cases h with
  | absent => exact fun _ h => absurd h (by simp)
  | var _ hd =>
    rw [worded_cons] at hw
    rintro st ⟨⟩
    exact hd.proper hw.2
  | expression he =>
    rintro st ⟨⟩
    exact (he.proper hw).1

theorem Parameters.plain {count : Nat} {ts : List Token} {names : List Name} {is : List Issue}
    (h : Parameters count ts names is) (hw : Worded ts) : ∀ p ∈ names, Plain p.text := by
  induction h with
  | last hn =>
    rw [worded_cons] at hw
    exact List.forall_mem_singleton.mpr (hw.1.2 hn)
  | more hn _ _ ih =>
    simp only [worded_cons] at hw
    exact List.forall_mem_cons.mpr ⟨hw.1.2 hn, ih hw.2.2⟩

theorem OptionalParameters.plain {ts : List Token} {names : List Name} {is : List Issue}
    (h : OptionalParameters ts names is) (hw : Worded ts) : ∀ p ∈ names, Plain p.text := by
  cases h with
  | absent => exact fun _ h => absurd h List.not_mem_nil
  | present hp => exact hp.plain hw

theorem Superclass.plain {ts : List Token} {superclass : Option (Reference Unit)}
    (h : Superclass ts superclass) (hw : Worded ts) :
    ∀ r, superclass = some r → Plain r.name.text := by
  cases h with
  | absent => exact fun _ h => absurd h (by simp)
  | present _ hn =>
    simp only [worded_cons] at hw
    rintro r ⟨⟩
    exact hw.2.1.2 hn

/-- The loop that a for statement stands for is proper, and declares nothing. -/
theorem proper_forLoop {keyword : Pos} {initializer : Option RawStmt}
    {condition increment : Option RawExpr} {body : RawStmt}
    (hi : ∀ stmt, initializer = some stmt → stmt.Proper)
    (hc : ∀ e, condition = some e → e.Proper) (hn : ∀ e, increment = some e → e.Proper)
    (hb : body.Proper) (hd : body.declares = []) :
    (forLoop keyword initializer condition increment body).Proper ∧
      (forLoop keyword initializer condition increment body).declares = [] := by
  have hcondition : (condition.getD (alwaysTrue keyword)).Proper := by
    cases condition with
    | none => exact .literal _ _
    | some e => exact hc e rfl
  have hloop : ∀ inner : RawStmt, inner.Proper → inner.declares = [] →
      (Stmt.whileDo (condition.getD (alwaysTrue keyword)) inner).Proper :=
    fun inner h hd => .whileDo hcondition h hd
  have hfirst : ∀ first inner : RawStmt, first.Proper → inner.Proper → inner.declares = [] →
      (Stmt.block [first, .whileDo (condition.getD (alwaysTrue keyword)) inner]).Proper :=
    fun first inner hf h hd =>
      .block (List.forall_mem_cons.mpr ⟨hf, List.forall_mem_singleton.mpr (hloop inner h hd)⟩)
  have hmore : ∀ e, increment = some e → (Stmt.block [body, .expression e]).Proper := fun e he =>
    .block (List.forall_mem_cons.mpr ⟨hb, List.forall_mem_singleton.mpr (.expression (hn e he))⟩)
  cases increment with
  | none =>
    cases initializer with
    | none => exact ⟨hloop _ hb hd, rfl⟩
    | some first => exact ⟨hfirst _ _ (hi first rfl) hb hd, rfl⟩
  | some e =>
    cases initializer with
    | none => exact ⟨hloop _ (hmore e rfl) rfl, rfl⟩
    | some first => exact ⟨hfirst _ _ (hi first rfl) (hmore e rfl) rfl, rfl⟩

/-- The proper trees of a sort of phrases. What stands as a statement declares nothing. -/
def ProperPhrase : (sort : PhraseSort) → sort.Tree → Prop
  | .statement _, stmt => stmt.Proper ∧ stmt.declares = []
  | .declaration _, stmt => stmt.Proper
  | .declarations, stmts => ∀ stmt ∈ stmts, stmt.Proper
  | .function, f => f.Proper
  | .methods, fs => ∀ f ∈ fs, f.Proper

/-- The tree of a derivation from the tokens of a text is proper. -/
theorem Phrase.proper {sort : PhraseSort} {ts : List Token} {tree : sort.Tree} {is : List Issue}
    (h : Phrase sort ts tree is) (hw : Worded ts) : ProperPhrase sort tree := by
  induction h with
  | expression he => exact he.proper hw
  | print _ he _ =>
    simp only [worded_append, worded_cons] at hw
    exact ⟨.print (he.proper hw.1.2), rfl⟩
  | giveBack _ hv _ =>
    simp only [worded_append, worded_cons] at hw
    exact ⟨.giveBack _ (hv.proper hw.1.2), rfl⟩
  | block _ _ _ ih =>
    simp only [worded_append, worded_cons] at hw
    exact ⟨.block (ih hw.1.2), rfl⟩
  | ifThen _ _ hc _ _ ih =>
    simp only [worded_append, worded_cons] at hw
    obtain ⟨hp, hd⟩ := ih hw.2.2
    exact ⟨.ifThen (hc.proper hw.1.2.2) hp hd, rfl⟩
  | ifElse _ _ hc _ _ _ _ ihthen ihelse =>
    simp only [worded_append, worded_cons] at hw
    obtain ⟨hp, hd⟩ := ihthen hw.1.2.2
    obtain ⟨he, hd'⟩ := ihelse hw.2.2
    exact ⟨.ifElse (hc.proper hw.1.1.2.2) hp hd he hd', rfl⟩
  | whileDo _ _ hc _ _ ih =>
    simp only [worded_append, worded_cons] at hw
    obtain ⟨hb, hd⟩ := ih hw.2.2
    exact ⟨.whileDo (hc.proper hw.1.2.2) hb hd, rfl⟩
  | forDo _ _ hi hc _ hn _ _ ih =>
    simp only [worded_append, worded_cons] at hw
    obtain ⟨⟨⟨⟨-, -, hts⟩, hus⟩, -, hvs⟩, -, hws⟩ := hw
    obtain ⟨hb, hd⟩ := ih hws
    exact proper_forLoop (hi.proper hts) (hc.proper hus) (hn.proper hvs) hb hd
  | statement _ ih => exact (ih hw).1
  | varDecl _ hd =>
    rw [worded_cons] at hw
    exact hd.proper hw.2
  | function _ _ ih =>
    rw [worded_cons] at hw
    exact .function (ih hw.2)
  | classDecl _ hn hs _ _ _ ih =>
    simp only [worded_append, worded_cons] at hw
    obtain ⟨⟨⟨-, hname, hts⟩, -, hus⟩, -⟩ := hw
    exact .classDecl (hname.2 hn) (hs.plain hts) (ih hus)
  | routine hn _ hp _ _ _ _ ih =>
    simp only [worded_append, worded_cons] at hw
    obtain ⟨⟨⟨hname, -, hts⟩, -, -, hus⟩, -⟩ := hw
    exact .mk (hname.2 hn) (hp.plain hts) (ih hus)
  | noDeclarations => exact fun _ h => absurd h List.not_mem_nil
  | declarations _ _ ih ihrest =>
    rw [worded_append] at hw
    exact List.forall_mem_cons.mpr ⟨ih hw.1, ihrest hw.2⟩
  | noMethods => exact fun _ h => absurd h List.not_mem_nil
  | methods _ _ ih ihrest =>
    rw [worded_append] at hw
    exact List.forall_mem_cons.mpr ⟨ih hw.1, ihrest hw.2⟩

/-- The statements of a text without issues are proper. -/
theorem proper_parse {text : String} (h : (parse (Tokens.ofText text)).issues = []) :
    ∀ stmt ∈ (parse (Tokens.ofText text)).statements, stmt.Proper := by
  have hread : parse (Tokens.ofText text) = ⟨(parse (Tokens.ofText text)).statements, []⟩ := by
    rw [← h]
  exact (derivation_of_parse hread).proper (Tokens.worded_ofText text)

end Grammar

end LoxKit
