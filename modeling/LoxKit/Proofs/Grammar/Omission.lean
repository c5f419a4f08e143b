import LoxKit.Proofs.Grammar.Damage

/-!
# A semicolon that is missing

The reader notices a missing semicolon at the keyword with which the next statement begins. Skipping
takes one token before it looks, so it takes this keyword, and what is read behind it is no longer
the next statement. That the statement is lost, or else that there is more to complain about, shows
in a count: a text of the grammar has as many keywords that begin a statement as its trees have
statements with such a keyword.

Headlines:
* `Phrase.openers`: the keywords of a derivation are counted by its trees.
* `Unfinished.reads`: a statement without its semicolon costs the keyword behind it.
* **`parsed_unfinished`**: what is read, and that it is never all of the statements with one issue.
-/

namespace LoxKit.Grammar

open LoxKit.Parser

/-! ## Keywords that begin a statement -/

/-- Whether a token of a kind begins a statement. -/
def opens : Kind → Bool
  | .keyword k => k.startsStatement
  | _ => false

theorem startsStatement_eq (t : Token) : startsStatement t = opens t.kind := rfl

/-- How many tokens begin a statement. -/
def openers (ts : List Token) : Nat :=
  ts.countP startsStatement

@[simp]
theorem openers_nil : openers [] = 0 := rfl

@[simp]
theorem openers_append (ts us : List Token) : openers (ts ++ us) = openers ts + openers us :=
  List.countP_append

theorem openers_cons_opens {t : Token} (h : opens t.kind = true) (ts : List Token) :
    openers (t :: ts) = openers ts + 1 :=
  List.countP_cons_of_pos h

theorem openers_cons_other {t : Token} (h : opens t.kind = false) (ts : List Token) :
    openers (t :: ts) = openers ts :=
  List.countP_cons_of_neg (by rw [startsStatement_eq, h]; exact Bool.false_ne_true)

theorem openers_cons_kind {t : Token} {kind : Kind} (ht : t.kind = kind) (ts : List Token) :
    openers (t :: ts) = openers ts + (opens kind).toNat := by
  cases h : opens kind with
  | true => exact openers_cons_opens (ht ▸ h) ts
  | false => exact openers_cons_other (ht ▸ h) ts

theorem opens_of_startsExpression {kind : Kind} (h : startsExpression kind = true) :
    opens kind = false := by
  cases kind with
  | keyword k => cases k <;> first | rfl | exact absurd h (by decide)
  | _ => rfl

/-- No expression has a keyword in it that begins a statement. -/
theorem Expression.openers {sort : ExpressionSort} {ts : List Token} {tree : sort.Tree}
    {is : List Issue} (h : Expression sort ts tree is) : openers ts = 0 := by
  induction h with
  | tighter _ ih | last _ ih => exact ih
  | literal ht =>
    exact openers_cons_other (opens_of_startsExpression (startsExpression_of_literal ht)) []
  | this ht | var ht => exact openers_cons_kind ht []
  | super ht hd hm =>
    rw [openers_cons_kind ht, openers_cons_kind hd, openers_cons_kind hm]
    rfl
  | grouping hl _ hr ih =>
    rw [openers_append, openers_cons_kind hl, ih, openers_cons_kind hr]
    rfl
  | get _ hd hf ih =>
    rw [openers_append, ih, openers_cons_kind hd, openers_cons_kind hf]
    rfl
  | callNone _ hl hr ih =>
    rw [openers_append, ih, openers_cons_kind hl, openers_cons_kind hr]
    rfl
  | call _ hl _ hr ih ihargs =>
    rw [openers_append, openers_append, ih, openers_cons_kind hl, ihargs, openers_cons_kind hr]
    rfl
  | unary ht _ ih =>
    rw [openers_cons_kind ht, ih]
    rfl
  | binary _ ht _ ihl ihr | assignVar _ ht _ ihl ihr | assignField _ ht _ ihl ihr
  | assignOther _ _ _ ht _ ihl ihr | more _ ht _ ihl ihr =>
    rw [openers_append, ihl, openers_cons_kind ht, ihr]
    rfl
  | @logical op _ _ _ _ _ _ _ _ ht _ ihl ihr =>
    rw [openers_append, ihl, openers_cons_kind ht, ihr]
    cases op <;> rfl

/-! ## Statements that begin with a keyword -/

mutual

/-- How many statements in a statement begin with a keyword that begins statements. The loop that a
for statement stands for counts as one. -/
def keyed : RawStmt → Nat
  | .expression _ => 0
  | .print _ | .var _ _ | .giveBack _ _ => 1
  | .block body => keyedOfAll body
  | .ifThen _ thenPart => keyed thenPart + 1
  | .ifElse _ thenPart elsePart => keyed thenPart + keyed elsePart + 1
  | .whileDo _ body => keyed body + 1
  | .function f => keyedOfFunction f + 1
  | .classDecl _ _ methods => keyedOfMethods methods + 1

/-- The same for the statements of a function. -/
def keyedOfFunction : Function Unit → Nat
  | .mk _ _ body => keyedOfAll body

/-- The same for statements in a row. -/
def keyedOfAll : List RawStmt → Nat
  | [] => 0
  | stmt :: stmts => keyed stmt + keyedOfAll stmts

/-- The same for the statements of methods. -/
def keyedOfMethods : List (Function Unit) → Nat
  | [] => 0
  | f :: fs => keyedOfFunction f + keyedOfMethods fs

end

/-- The statements with a keyword in the tree of a phrase. -/
def PhraseSort.keyed : (sort : PhraseSort) → sort.Tree → Nat
  | statement _, stmt => Grammar.keyed stmt
  | declaration _, stmt => Grammar.keyed stmt
  | declarations, stmts => keyedOfAll stmts
  | function, f => keyedOfFunction f
  | methods, fs => keyedOfMethods fs

theorem keyed_forLoop (keyword : Pos) (initializer : Option RawStmt)
    (condition increment : Option RawExpr) (body : RawStmt) :
    keyed (forLoop keyword initializer condition increment body) =
      keyedOfAll initializer.toList + keyed body + 1 := by
  cases initializer <;> cases increment <;>
    simp [forLoop, keyed, keyedOfAll, Nat.add_assoc]

theorem OptionalExpression.openers {ts : List Token} {e : Option RawExpr} {is : List Issue}
    (h : OptionalExpression ts e is) : openers ts = 0 := by
  cases h with
  | absent => rfl
  | present he => exact he.openers

theorem ExpressionStatement.openers {ts : List Token} {stmt : RawStmt} {is : List Issue}
    (h : ExpressionStatement ts stmt is) : openers ts = keyed stmt := by
  obtain ⟨he, hs⟩ := h
  rw [openers_append, he.openers, openers_cons_kind hs]
  rfl

theorem VariableDeclaration.openers {ts : List Token} {stmt : RawStmt} {is : List Issue}
    (h : VariableDeclaration ts stmt is) : openers ts + 1 = keyed stmt := by
  cases h with
  | bare hn hs =>
    rw [openers_cons_kind hn, openers_cons_kind hs]
    rfl
  | initialized hn hq he hs =>
    rw [openers_append, openers_cons_kind hn, openers_cons_kind hq, he.openers,
      openers_cons_kind hs]
    rfl

theorem Initializer.openers {ts : List Token} {stmt : Option RawStmt} {is : List Issue}
    (h : Initializer ts stmt is) : openers ts = keyedOfAll stmt.toList := by
  cases h with
  | absent hs => exact openers_cons_kind hs []
  | var ht hd => exact (openers_cons_kind ht _).trans hd.openers
  | expression he => exact he.openers

theorem Parameters.openers {count : Nat} {ts : List Token} {names : List Name} {is : List Issue}
    (h : Parameters count ts names is) : openers ts = 0 := by
  induction h with
  | last hn => exact openers_cons_kind hn []
  | more hn hc _ ih =>
    rw [openers_cons_kind hn, openers_cons_kind hc, ih]
    rfl

theorem OptionalParameters.openers {ts : List Token} {names : List Name} {is : List Issue}
    (h : OptionalParameters ts names is) : openers ts = 0 := by
  cases h with
  | absent => rfl
  | present hp => exact hp.openers

theorem Superclass.openers {ts : List Token} {superclass : Option (Reference Unit)}
    (h : Superclass ts superclass) : openers ts = 0 := by
  cases h with
  | absent => rfl
  | present hl hn =>
    rw [openers_cons_kind hl, openers_cons_kind hn]
    rfl

/-- A phrase of the grammar has as many keywords that begin a statement as its tree has statements
that begin with one. -/
theorem Phrase.openers {sort : PhraseSort} {ts : List Token} {tree : sort.Tree} {is : List Issue}
    (h : Phrase sort ts tree is) : openers ts = sort.keyed tree := by
  induction h with
  | expression he => exact he.openers
  | print ht he hs =>
    rw [openers_append, openers_cons_kind ht, he.openers, openers_cons_kind hs]
    rfl
  | giveBack ht hv hs =>
    rw [openers_append, openers_cons_kind ht, hv.openers, openers_cons_kind hs]
    rfl
  | block hl _ hr ih =>
    rw [openers_append, openers_cons_kind hl, ih, openers_cons_kind hr]
    rfl
  | ifThen ht hl hc hr _ ih =>
    rw [openers_append, openers_cons_kind ht, openers_cons_kind hl, hc.openers,
      openers_cons_kind hr, ih]
    exact Nat.add_comm 1 _
  | ifElse ht hl hc hr _ ho _ ihthen ihelse =>
    rw [openers_append, openers_append, openers_cons_kind ht, openers_cons_kind hl, hc.openers,
      openers_cons_kind hr, openers_cons_kind ho, ihthen, ihelse]
    show 0 + 0 + 1 + (keyed _ + 0) + (keyed _ + 0) = keyed _ + keyed _ + 1
    omega
  | whileDo ht hl hc hr _ ih =>
    rw [openers_append, openers_cons_kind ht, openers_cons_kind hl, hc.openers,
      openers_cons_kind hr, ih]
    exact Nat.add_comm 1 _
  | forDo ht hl hi hc hs hn hr _ ih =>
    rw [openers_append, openers_append, openers_append, openers_cons_kind ht,
      openers_cons_kind hl, hi.openers, hc.openers, openers_cons_kind hs, hn.openers,
      openers_cons_kind hr, ih]
    show keyedOfAll _ + 0 + 1 + 0 + (0 + 0) + (keyed _ + 0) = keyed (forLoop _ _ _ _ _)
    rw [keyed_forLoop]
    omega
  | statement _ ih => exact ih
  | varDecl ht hd => exact (openers_cons_kind ht _).trans hd.openers
  | function ht _ ih => exact (openers_cons_kind ht _).trans (congrArg (· + 1) ih)
  | classDecl ht hn hs hl _ hr ih =>
    rw [openers_append, openers_append, openers_cons_kind ht, openers_cons_kind hn, hs.openers,
      openers_cons_kind hl, ih, openers_cons_kind hr]
    exact Nat.add_comm 1 _
  | routine hn hl hp hr hlb _ hrb ih =>
    rw [openers_append, openers_append, openers_cons_kind hn, openers_cons_kind hl, hp.openers,
      openers_cons_kind hr, openers_cons_kind hlb, ih, openers_cons_kind hrb]
    exact Nat.zero_add _
  | noDeclarations | noMethods => rfl
  | declarations _ _ ih ihrest | methods _ _ ih ihrest =>
    rw [openers_append, ih, ihrest]
    rfl

/-- Skipping takes the keyword in front of it. -/
theorem openers_skip {t : Token} (h : startsStatement t = true) (ts : List Token) :
    openers (skip (t :: ts)) < openers (t :: ts) := by
  obtain ⟨skipped, htokens, hsome⟩ := skip_spec (t :: ts)
  cases skipped with
  | nil => exact absurd rfl (hsome (List.cons_ne_nil t ts))
  | cons u us =>
    have hrest : ts = us ++ skip (t :: ts) := (List.cons.inj htokens).2
    rw [openers_cons_opens h]
    refine Nat.lt_succ_of_le ?_
    conv => rhs; rw [hrest, openers_append]
    exact Nat.le_add_left _ _

/-! ## Statements without their semicolon -/

/-- The statements that end with a semicolon of their own. -/
inductive Simple : List Token → RawStmt → List Issue → Prop
  | var {t : Token} {ts : List Token} {stmt : RawStmt} {is : List Issue}
      (ht : t.kind = .keyword .var) (hd : VariableDeclaration ts stmt is) : Simple (t :: ts) stmt is
  | print {t semi : Token} {ts : List Token} {e : RawExpr} {is : List Issue}
      (ht : t.kind = .keyword .print) (he : Expression (.ranked .assignment) ts e is)
      (hs : semi.kind = .symbol .semicolon) : Simple (t :: ts ++ [semi]) (.print e) is
  | giveBack {t semi : Token} {ts : List Token} {value : Option RawExpr} {is : List Issue}
      (ht : t.kind = .keyword .return) (hv : OptionalExpression ts value is)
      (hs : semi.kind = .symbol .semicolon) : Simple (t :: ts ++ [semi]) (.giveBack t.pos value) is
  | expression {ts : List Token} {stmt : RawStmt} {is : List Issue}
      (he : ExpressionStatement ts stmt is) : Simple ts stmt is

theorem Simple.phrase {ts : List Token} {stmt : RawStmt} {is : List Issue}
    (h : Simple ts stmt is) : Phrase (.declaration false) ts stmt is := by
  cases h with
  | var ht hd => exact .varDecl ht hd
  | print ht he hs => exact .statement (.print ht he hs)
  | giveBack ht hv hs => exact .statement (.giveBack ht hv hs)
  | expression he => exact .statement (.expression he)

/-- Tokens that would be a simple statement with a semicolon behind them, and the issues with it. -/
def Unfinished (front : List Token) (is : List Issue) : Prop :=
  ∃ semi stmt, semi.kind = .symbol .semicolon ∧ Simple (front ++ [semi]) stmt is

/-- The reader of expressions gives up at a token that starts none. -/
theorem settles_expression {t : Token} (h : startsExpression t.kind = false) (rest : List Token) :
    Settles expression [] (t :: rest) none [.atToken t (.expected .expression)] := by
  have hne : ∀ {kind : Kind}, startsExpression kind = true →
      HeadAvoids (· = kind) ([] ++ t :: rest) := fun {kind} hk =>
    headAvoids_cons fun ht => by rw [ht, hk] at h; exact absurd h (by simp)
  have hliteral : literalOf? t = none := by
    cases hl : literalOf? t with
    | none => rfl
    | some value => exact absurd (startsExpression_of_literal hl) (by rw [h]; simp)
  have hsign : sign? t = none := by
    cases hs : sign? t with
    | none => rfl
    | some p =>
      rw [(sign?_some hs).1] at h
      cases hop : p.1 <;> rw [hop] at h <;> exact absurd h (by decide)
  have hprimary : ∀ inner, Settles (primary inner) [] (t :: rest) none
      [.atToken t (.expected .expression)] := fun inner => by
    refine Settles.behind (p := take? _) (a := none) (reads_take?_miss fun u hu => ?_) ?_
    · cases hu
      rw [hliteral]
      rfl
    refine settles_accept_none (hne rfl) (settles_accept_none (hne rfl) ?_)
    refine settles_accept_none (hne rfl) (settles_accept_none (hne rfl) ?_)
    exact settles_refuse .expression t rest
  have hunary : ∀ inner, Settles (unary inner) [] (t :: rest) none
      [.atToken t (.expected .expression)] := fun inner ending => by
    rw [unary_none inner fun u hu => by cases hu; exact hsign]
    exact (hprimary inner).bind_none ending
  rw [expression_eq]
  exact (hunary _).bind_none.bind_none.bind_none.bind_none.bind_none.bind_none.bind_none

section Missing

variable {t : Token} (ht : startsStatement t = true)

include ht

theorem kind_ne_of_starts {kind : Kind} (h : opens kind = false) : t.kind ≠ kind := by
  rintro rfl
  rw [← startsStatement_eq, ht] at h
  cases h

theorem extender_of_starts : extender t.kind = none := by
  rcases h : t.kind with s | k | _ | _ | _ | _
  · exact absurd h (kind_ne_of_starts ht rfl)
  · cases k <;> first | rfl | exact absurd h (kind_ne_of_starts ht (by decide))
  all_goals rfl

theorem startsExpression_of_starts : startsExpression t.kind = false := by
  cases h : startsExpression t.kind with
  | false => rfl
  | true =>
    have hopens := opens_of_startsExpression h
    rw [← startsStatement_eq, ht] at hopens
    exact absurd hopens (by simp)

/-- A reader behind which a semicolon is asked for. -/
theorem settles_semicolon {α β : Type} {p : Parser α} {ts rest : List Token} {a : α}
    {is : List Issue} (hp : Reads p ts (t :: rest) a is) (what : Expectation) (f : α → β) :
    Settles (p >>= fun a => symbol .semicolon what >>= fun _ => pure (f a)) ts (t :: rest) none
      (is ++ [.atToken t (.expected what)]) := by
  have hne : t.kind ≠ .symbol .semicolon := kind_ne_of_starts ht rfl
  exact Settles.stay hp (settles_expect_other hne rest).bind_none

/-- A variable declaration that stands before such a keyword without its semicolon. -/
theorem settles_variable {front : List Token} {semi : Token} {stmt : RawStmt} {is : List Issue}
    (h : VariableDeclaration (front ++ [semi]) stmt is) (rest : List Token) :
    Settles variableDeclaration front (t :: rest) none
      (is ++ [.atToken t (.expected .variableEnd)]) := by
  have hstop := stops_of_extender (extender_of_starts ht) .assignment rest
  generalize htokens : front ++ [semi] = tokens at h
  cases h with
  | @bare name semi' hn _ =>
    have htokens : front ++ [semi] = [name] ++ [semi'] := htokens
    obtain ⟨rfl, -⟩ := List.append_inj' htokens rfl
    refine settles_expect hn ?_
    refine settles_accept_none (headAvoids_cons (kind_ne_of_starts ht rfl)) ?_
    exact settles_semicolon ht (reads_pure none _) .variableEnd _
  | @initialized name equals semi' us e is hn hq he _ =>
    obtain ⟨rfl, -⟩ := List.append_inj' htokens rfl
    refine settles_expect hn (settles_accept hq ?_)
    exact settles_semicolon ht (he.reads hstop).map .variableEnd _

/-- A return statement that stands before such a keyword without its semicolon. -/
theorem settles_return {ts : List Token} {value : Option RawExpr} {is : List Issue}
    (h : OptionalExpression ts value is) (keyword : Pos) (rest : List Token) :
    ∃ what, Settles (returnStatement keyword) ts (t :: rest) none
      (is ++ [.atToken t (.expected what)]) := by
  have hnext : ∀ {u : Token} {us : List Token}, u.kind ≠ .symbol .semicolon → ∀ ending,
      optionalExpression .semicolon ⟨u :: us, ending⟩ =
        (some <$> expression) ⟨u :: us, ending⟩ := by
    intro u us hu ending
    have hno : ¬Stream.nextIs ⟨u :: us, ending⟩ (.symbol .semicolon) = true := by
      simp [Stream.nextIs, hu]
    unfold optionalExpression
    show Parser.bind look _ _ = _
    simp only [Parser.bind, look, List.nil_append, if_neg hno]
    rfl
  cases h with
  | absent =>
    refine ⟨.expression, Settles.bind_none (p := optionalExpression .semicolon) fun ending => ?_⟩
    rw [List.nil_append, hnext (kind_ne_of_starts ht rfl)]
    exact (settles_expression (startsExpression_of_starts ht) rest).bind_none ending
  | @present _ e _ he =>
    obtain ⟨u, us, rfl, hu⟩ := he.starts
    refine ⟨.returnEnd, settles_semicolon ht (p := optionalExpression .semicolon) (a := some e)
      (fun ending => ?_) .returnEnd _⟩
    rw [List.cons_append, hnext (ne_of_test hu rfl)]
    exact (he.reads (stops_of_extender (extender_of_starts ht) .assignment rest)).map ending

/-- The declaration gives up at the keyword behind it. -/
theorem Unfinished.settles {front : List Token} {is : List Issue} (h : Unfinished front is)
    (rest : List Token) : ∃ what, Settles (declarationOver statement declaration) front (t :: rest)
      none (is ++ [.atToken t (.expected what)]) := by
  obtain ⟨semi, stmt, hsemi, hsimple⟩ := h
  have hstop := stops_of_extender (extender_of_starts ht) .assignment rest
  have hother : ∀ {kind kind' : Kind} {u : Token} {us : List Token}, u.kind = kind →
      kind ≠ kind' → HeadAvoids (· = kind') (u :: us ++ t :: rest) := fun hu hne =>
    headAvoids_cons (hu ▸ hne)
  rw [statement_eq]
  generalize htokens : front ++ [semi] = tokens at hsimple
  cases hsimple with
  | @var u us stmt is hu hd =>
    cases front with
    | nil =>
      obtain ⟨rfl, rfl⟩ := List.cons.inj htokens
      rw [hsemi] at hu
      cases hu
    | cons v vs =>
      obtain ⟨rfl, rfl⟩ := List.cons.inj htokens
      refine ⟨.variableEnd, settles_accept_none (hother hu (by decide)) ?_⟩
      refine settles_accept_none (hother hu (by decide)) (settles_accept hu ?_)
      exact settles_variable ht hd rest
  | @print u semi' us e is hu he _ =>
    obtain ⟨rfl, -⟩ := List.append_inj' htokens rfl
    refine ⟨.printEnd, settles_accept_none (hother hu (by decide)) ?_⟩
    refine settles_accept_none (hother hu (by decide)) ?_
    refine settles_accept_none (hother hu (by decide)) ?_
    refine settles_accept_none (hother hu (by decide)) ?_
    refine settles_accept_none (hother hu (by decide)) (settles_accept hu ?_)
    exact settles_semicolon ht (he.reads hstop) .printEnd Stmt.print
  | @giveBack u semi' us value is hu hv _ =>
    obtain ⟨rfl, -⟩ := List.append_inj' htokens rfl
    obtain ⟨what, hreturn⟩ := settles_return ht hv u.pos rest
    refine ⟨what, settles_accept_none (hother hu (by decide)) ?_⟩
    refine settles_accept_none (hother hu (by decide)) ?_
    refine settles_accept_none (hother hu (by decide)) ?_
    refine settles_accept_none (hother hu (by decide)) ?_
    refine settles_accept_none (hother hu (by decide)) ?_
    exact settles_accept_none (hother hu (by decide)) (settles_accept hu hreturn)
  | expression he =>
    obtain ⟨he, hs⟩ := he
    obtain ⟨rfl, -⟩ := List.append_inj' htokens rfl
    obtain ⟨u, us, rfl, hu⟩ := he.starts
    have hno : ∀ {kind : Kind}, startsExpression kind = false →
        HeadAvoids (· = kind) (u :: us ++ t :: rest) := fun hk => headAvoids_cons (ne_of_test hu hk)
    refine ⟨.expressionEnd, settles_accept_none (hno rfl) (settles_accept_none (hno rfl) ?_)⟩
    refine settles_accept_none (hno rfl) (settles_accept_none (hno rfl) ?_)
    refine settles_accept_none (hno rfl) (settles_accept_none (hno rfl) ?_)
    refine settles_accept_none (hno rfl) (settles_accept_none (hno rfl) ?_)
    refine settles_accept_none (hno rfl) ?_
    exact settles_semicolon ht (he.reads hstop) .expressionEnd Stmt.expression

/-- The reader of declarations leaves the declaration out, and takes the keyword with it. -/
theorem Unfinished.reads {front : List Token} {is : List Issue} (h : Unfinished front is)
    (rest : List Token) : ∃ what skipped, t :: rest = skipped ++ skip (t :: rest) ∧ skipped ≠ [] ∧
      Reads declaration (front ++ skipped) (skip (t :: rest)) none
        (is ++ [.atToken t (.expected what)]) := by
  obtain ⟨what, hsettles⟩ := h.settles ht rest
  obtain ⟨skipped, htokens, hsome⟩ := skip_spec (t :: rest)
  refine ⟨what, skipped, htokens, hsome (List.cons_ne_nil t rest), fun ending => ?_⟩
  rw [declaration_eq, List.append_assoc, ← htokens]
  simp only [recovering, hsettles ending]

end Missing

/-- **A missing semicolon costs the next statement.** Between a program without issues and another
one that begins with a keyword, a simple statement without its semicolon gives one syntax error at
that keyword, behind the issues that the statement has anyway. What is read from there on is what is
read of the tokens that skipping leaves, and the keyword is not among them. So the statements of the
two programs are never all read with a single issue. -/
theorem parsed_unfinished {p front rest : List Token} {t : Token} {is : List Issue}
    (ending ending₁ ending₂ : Token) (hp : (parsed p ending₁).issues = [])
    (hb : Unfinished front is) (ht : startsStatement t = true)
    (hq : (parsed (t :: rest) ending₂).issues = []) :
    (∃ what, parsed (p ++ front ++ t :: rest) ending =
      parsed p ending₁ ++ ⟨[], is ++ [.atToken t (.expected what)]⟩ ++
        parsed (skip (t :: rest)) ending) ∧
      ¬((parsed (p ++ front ++ t :: rest) ending).statements =
          (parsed p ending₁).statements ++ (parsed (t :: rest) ending₂).statements ∧
        (parsed (p ++ front ++ t :: rest) ending).issues.length = 1) := by
  obtain ⟨what, skipped, htokens, hsome, hreads⟩ := hb.reads ht rest
  have hnot : HeadAvoids (· = .keyword .else) (front ++ t :: rest) := by
    obtain ⟨semi, stmt, -, hsimple⟩ := hb
    cases front with
    | nil => exact headAvoids_cons (kind_ne_of_starts ht (by decide))
    | cons u us =>
      have hfirst := (Phrase.declarations hsimple.phrase .noDeclarations).declarations_not_else
      exact headAvoids_cons (hfirst u rfl)
  have hone : parsed (front ++ t :: rest) ending =
      ⟨[], is ++ [.atToken t (.expected what)]⟩ ++ parsed (skip (t :: rest)) ending := by
    obtain ⟨u, us, hu⟩ := List.exists_cons_of_ne_nil
      (fun h => hsome (List.append_eq_nil_iff.mp h).2 : front ++ skipped ≠ [])
    have hcons := hreads
    rw [hu] at hcons
    conv => lhs; rw [htokens, ← List.append_assoc, hu]
    exact parsed_cons hcons ending
  have hall : parsed (p ++ front ++ t :: rest) ending =
      parsed p ending₁ ++ ⟨[], is ++ [.atToken t (.expected what)]⟩ ++
        parsed (skip (t :: rest)) ending := by
    rw [List.append_assoc, parsed_append (derivation_of_parsed hp) hnot, hone, ← hp,
      Parsed.append_assoc]
  refine ⟨⟨what, hall⟩, fun ⟨hstmts, hissues⟩ => ?_⟩
  rw [hall] at hstmts hissues
  have hskip : (parsed (skip (t :: rest)) ending).issues = [] := by
    simp only [Parsed.issues_append, List.length_append, List.length_singleton] at hissues
    exact List.length_eq_zero_iff.mp (by omega)
  have hsame : (parsed (skip (t :: rest)) ending).statements =
      (parsed (t :: rest) ending₂).statements := by
    simp only [Parsed.statements_append, List.append_nil] at hstmts
    exact List.append_cancel_left hstmts
  have hless := openers_skip ht rest
  rw [(derivation_of_parsed hskip).openers, (derivation_of_parsed hq).openers, hsame] at hless
  exact Nat.lt_irrefl _ hless

/-- The keyword `print` as a token of the first line. -/
def printAt (offset : Nat) : Token :=
  Keyword.print.token ⟨1, offset⟩

theorem unfinished_name : Unfinished [nameAt 0] [] := by
  have hname : Expression (.ranked .assignment) [nameAt 0] (.var (referenceAt (nameAt 0))) [] := by
    have hvar : Expression (.ranked .primary) [nameAt 0] (.var (referenceAt (nameAt 0))) [] :=
      .var rfl
    exact .tighter (.tighter (.tighter (.tighter (.tighter (.tighter (.tighter (.tighter
      (.tighter hvar))))))))
  exact ⟨semicolonAt 1, _, rfl, .expression (.mk hname rfl)⟩

/-- In `a print a;` the statement behind the missing semicolon is lost. -/
theorem parsed_name_print :
    (parsed [] (Tokens.endingAt ⟨1, 0⟩)).issues = [] ∧ Unfinished [nameAt 0] [] ∧
      startsStatement (printAt 2) = true ∧
      (parsed [printAt 2, nameAt 8, semicolonAt 9] (Tokens.endingAt ⟨1, 10⟩)).issues = [] ∧
      ¬((parsed [nameAt 0, printAt 2, nameAt 8, semicolonAt 9]
          (Tokens.endingAt ⟨1, 10⟩)).statements = [.print (.var (referenceAt (nameAt 8)))] ∧
        (parsed [nameAt 0, printAt 2, nameAt 8, semicolonAt 9]
          (Tokens.endingAt ⟨1, 10⟩)).issues.length = 1) := by
  have hp : (parsed [] (Tokens.endingAt ⟨1, 0⟩)).issues = [] := rfl
  have hq : (parsed [printAt 2, nameAt 8, semicolonAt 9]
      (Tokens.endingAt ⟨1, 10⟩)).issues = [] := rfl
  exact ⟨hp, unfinished_name, rfl, hq,
    (parsed_unfinished (Tokens.endingAt ⟨1, 10⟩) _ _ hp unfinished_name rfl hq).2⟩

/-- The first text and the second each give a statement and no issue; without the semicolon between
them there is no statement, and one issue. -/
theorem parse_missing_semicolon :
    (parse (Tokens.ofText "print 1;")).issues = [] ∧
      (parse (Tokens.ofText "print 2;")).issues = [] ∧
      (parse (Tokens.ofText "print 2;")).statements.length = 1 ∧
      (parse (Tokens.ofText "print 1 print 2;")).statements = [] ∧
      (parse (Tokens.ofText "print 1 print 2;")).issues.length = 1 := by
  decide +kernel

end LoxKit.Grammar
