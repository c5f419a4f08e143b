import LoxKit.Proofs.Grammar.Expressions

/-!
# The reader reads the grammar

Statements and declarations, as expressions before them: what is derived is read in front of
whatever may follow it, and what is read without a syntax error is derived. Only an `else` may not
follow everything: behind a dangling statement it would go on with it.

Headlines:
* `Phrase.begins`: which tokens a statement or a declaration starts with.
* `Phrase.readable`: what is derived is read.
* `derives_within`: what is read is derived.
* `parse_exact`: the reader accepts the programs of the grammar and no other, with the trees and the
  issues of their derivations.
-/

namespace LoxKit.Grammar

open LoxKit.Parser

/-! ## First tokens -/

/-- Whether a token of a kind can start a statement. -/
def beginsStatement (kind : Kind) : Bool :=
  startsExpression kind ||
    kind ∈ [.keyword .for, .keyword .if, .keyword .print, .keyword .return, .keyword .while,
      .symbol .leftBrace]

/-- Whether a token of a kind can start a declaration. -/
def beginsDeclaration (kind : Kind) : Bool :=
  beginsStatement kind || kind ∈ [.keyword .class, .keyword .fun, .keyword .var]

/-- Kinds that a test tells apart. -/
theorem ne_of_test {test : Kind → Bool} {kind k : Kind} (h : test kind = true)
    (hk : test k = false) : kind ≠ k := by
  rintro rfl
  rw [h] at hk
  exact absurd hk (by simp)

/-- The first token of a phrase, which lists need not have. -/
def Begins : PhraseSort → List Token → Prop
  | .statement _, ts => ∃ t us, ts = t :: us ∧ beginsStatement t.kind = true
  | .declaration _, ts => ∃ t us, ts = t :: us ∧ beginsDeclaration t.kind = true
  | .function, ts => ∃ t us, ts = t :: us ∧ t.kind = .identifier
  | .declarations, ts => ∀ t, ts.head? = some t → beginsDeclaration t.kind = true
  | .methods, ts => ∀ t, ts.head? = some t → t.kind = .identifier

theorem ExpressionStatement.begins {ts : List Token} {stmt : RawStmt} {is : List Issue}
    (h : ExpressionStatement ts stmt is) :
    ∃ t us, ts = t :: us ∧ startsExpression t.kind = true := by
  obtain ⟨he, -⟩ := h
  obtain ⟨t, us, rfl, ht⟩ := he.starts
  exact ⟨t, _, rfl, ht⟩

theorem Phrase.begins {sort : PhraseSort} {ts : List Token} {tree : sort.Tree} {is : List Issue}
    (h : Phrase sort ts tree is) : Begins sort ts := by
  induction h with
  | expression he =>
    obtain ⟨t, us, rfl, ht⟩ := he.begins
    exact ⟨t, us, rfl, by rw [beginsStatement, ht, Bool.true_or]⟩
  | print ht _ _ => exact ⟨_, _, rfl, by rw [ht]; rfl⟩
  | giveBack ht _ _ => exact ⟨_, _, rfl, by rw [ht]; rfl⟩
  | block hl _ _ _ => exact ⟨_, _, rfl, by rw [hl]; rfl⟩
  | ifThen ht _ _ _ _ _ => exact ⟨_, _, rfl, by rw [ht]; rfl⟩
  | ifElse ht _ _ _ _ _ _ _ _ => exact ⟨_, _, rfl, by rw [ht]; rfl⟩
  | whileDo ht _ _ _ _ _ => exact ⟨_, _, rfl, by rw [ht]; rfl⟩
  | forDo ht _ _ _ _ _ _ _ _ => exact ⟨_, _, rfl, by rw [ht]; rfl⟩
  | statement _ ih =>
    obtain ⟨t, us, rfl, ht⟩ := ih
    exact ⟨t, us, rfl, by rw [beginsDeclaration, ht, Bool.true_or]⟩
  | varDecl ht _ => exact ⟨_, _, rfl, by rw [ht]; rfl⟩
  | function ht _ _ => exact ⟨_, _, rfl, by rw [ht]; rfl⟩
  | classDecl ht _ _ _ _ _ _ => exact ⟨_, _, rfl, by rw [ht]; rfl⟩
  | routine hn _ _ _ _ _ _ _ => exact ⟨_, _, rfl, hn⟩
  | noDeclarations => exact fun t ht => absurd ht (by simp)
  | declarations _ _ ih _ =>
    obtain ⟨t, us, rfl, ht⟩ := ih
    intro u hu
    cases hu
    exact ht
  | noMethods => exact fun t ht => absurd ht (by simp)
  | methods _ _ ih _ =>
    obtain ⟨t, us, rfl, ht⟩ := ih
    intro u hu
    cases hu
    exact ht

/-- No declaration starts with `else`. -/
theorem Phrase.declarations_not_else {ts : List Token} {stmts : List RawStmt} {is : List Issue}
    (h : Phrase .declarations ts stmts is) : HeadAvoids (· = .keyword .else) ts := by
  intro t ht hk
  have hb := h.begins t ht
  rw [hk] at hb
  exact absurd hb (by decide)

/-! ## Parts of statements -/

theorem reads_optional {stop : Symbol} (hx : extender (.symbol stop) = none)
    (hs : startsExpression (.symbol stop) = false) {r : Token} (hr : r.kind = .symbol stop)
    {ts rest : List Token} {e : Option RawExpr} {is : List Issue}
    (h : OptionalExpression ts e is) : Reads (optionalExpression stop) ts (r :: rest) e is := by
  refine reads_look fun ending => ?_
  cases h with
  | absent =>
    have hnext : Stream.nextIs ⟨[] ++ r :: rest, ending⟩ (.symbol stop) = true := by
      simp [Stream.nextIs, hr]
    rw [if_pos hnext]
    rfl
  | present he =>
    obtain ⟨t, us, rfl, ht⟩ := he.starts
    have hne : t.kind ≠ .symbol stop := ne_of_test ht hs
    have hnext : ¬ Stream.nextIs ⟨t :: us ++ r :: rest, ending⟩ (.symbol stop) = true := by
      simp [Stream.nextIs, hne]
    rw [if_neg hnext]
    have he' := he.reads (stops_of_extender (by rw [hr]; exact hx) _ rest)
    exact (Reads.finish (f := fun e => pure (some e)) he' rfl) ending

theorem yields_optional (stop : Symbol) (s : Stream) :
    Yields (optionalExpression stop) s fun ts e is _ => OptionalExpression ts e is := by
  refine yields_look ?_
  split
  · exact yields_pure .absent
  · refine Yields.bind (yields_expression s) fun ts e is _ _ he => yields_pure ?_
    rw [List.append_nil, List.append_nil]
    exact .present he

/-- An expression with a token behind it that ends it. -/
theorem reads_closed {α : Type} {r : Token} (hx : extender r.kind = none) {ts us rest : List Token}
    {e : RawExpr} {is : List Issue} (he : Expression (.ranked .assignment) ts e is)
    {f : RawExpr → Parser α} {b : α} {js : List Issue} (hf : Reads (f e) (r :: us) rest b js) :
    Reads (expression >>= f) (ts ++ r :: us) rest b (is ++ js) :=
  (he.reads (stops_of_extender hx .assignment (us ++ rest))).bind hf

theorem reads_expressionStatement {ts rest : List Token} {stmt : RawStmt} {is : List Issue}
    (h : ExpressionStatement ts stmt is) : Reads expressionStatement ts rest stmt is := by
  obtain ⟨he, hs⟩ := h
  exact (he.reads (stops_of_extender (by rw [hs]; rfl) _ _)).close
    (reads_expect hs (reads_pure _ rest))

theorem yields_expressionStatement (s : Stream) :
    Yields expressionStatement s fun ts stmt is _ => ExpressionStatement ts stmt is := by
  refine Yields.bind (yields_expression s) fun ts e is _ _ he => ?_
  refine yields_expect fun semi _ _ hs => yields_pure ?_
  rw [List.append_nil]
  exact .mk he hs

theorem reads_print {semi : Token} {ts rest : List Token} {e : RawExpr} {is : List Issue}
    (he : Expression (.ranked .assignment) ts e is) (hs : semi.kind = .symbol .semicolon) :
    Reads printStatement (ts ++ [semi]) rest (.print e) is :=
  (he.reads (stops_of_extender (by rw [hs]; rfl) _ _)).close (reads_expect hs (reads_pure _ rest))

theorem reads_return {semi : Token} {ts rest : List Token} {value : Option RawExpr} {is : List Issue}
    (hv : OptionalExpression ts value is) (hs : semi.kind = .symbol .semicolon) (keyword : Pos) :
    Reads (returnStatement keyword) (ts ++ [semi]) rest (.giveBack keyword value) is :=
  (reads_optional rfl rfl hs hv).close (reads_expect hs (reads_pure _ rest))

theorem reads_variable {ts rest : List Token} {stmt : RawStmt} {is : List Issue}
    (h : VariableDeclaration ts stmt is) : Reads variableDeclaration ts rest stmt is := by
  cases h with
  | @bare name semi hn hs =>
    refine reads_expect hn ?_
    refine reads_accept_other (by simp [hs]) ?_
    exact Reads.bind (reads_pure none _) (reads_expect hs (reads_pure _ rest))
  | @initialized name equals semi ts e is hn hq he hs =>
    refine reads_expect hn ?_
    refine reads_accept hq ?_
    have hvalue : Reads (some <$> expression) ts (semi :: rest) (some e) is :=
      Reads.map (he.reads (stops_of_extender (by rw [hs]; rfl) _ _))
    exact Reads.close hvalue (reads_expect hs (reads_pure _ rest))

theorem yields_variable (s : Stream) :
    Yields variableDeclaration s fun ts stmt is _ => VariableDeclaration ts stmt is := by
  refine yields_expect fun name ts _ hn => ?_
  refine yields_accept (fun equals us _ hq => ?_) fun _ => ?_
  · refine Yields.bind (Yields.map (Q := fun vs o is _ => ∃ e, o = some e ∧
      Expression (.ranked .assignment) vs e is) ((yields_expression _).mono
        fun vs e is _ _ he => ⟨e, rfl, he⟩)) ?_
    rintro vs o is rest - ⟨e, rfl, he⟩
    refine yields_expect fun semi _ _ hs => yields_pure ?_
    rw [List.append_nil]
    exact .initialized hn hq he hs
  · refine Yields.bind (P := fun us o is _ => us = [] ∧ o = none ∧ is = [])
      (yields_pure ⟨rfl, rfl, rfl⟩) ?_
    rintro us o is rest - ⟨rfl, rfl, rfl⟩
    exact yields_expect fun semi _ _ hs => yields_pure (.bare hn hs)

/-! ### Parameters -/

/-- The reader of a parameter before which `count` others stand. -/
def parameter (count : Nat) : Parser Name :=
  checkCount "parameters" count >>= fun _ => nameOf <$> expect .identifier .parameterName

theorem reads_parameter {name : Token} (hn : name.kind = .identifier) (count : Nat)
    (rest : List Token) :
    Reads (parameter count) [name] rest (nameOf name) (excess "parameters" count [name]) := by
  have hname : Reads (expect .identifier .parameterName >>= fun t => pure (nameOf t)) [name] rest
      (nameOf name) [] := reads_expect hn (reads_pure _ rest)
  have h : Reads (parameter count) [name] rest (nameOf name)
      (excess "parameters" count [name] ++ []) := reads_counted (by simp) hname
  rwa [List.append_nil] at h

theorem yields_parameter (count : Nat) (s : Stream) :
    Yields (parameter count) s fun ts name is _ => ∃ t, ts = [t] ∧ t.kind = .identifier ∧
      name = nameOf t ∧ is = excess "parameters" count [t] := by
  have hname : Yields (expect .identifier .parameterName >>= fun t => pure (nameOf t)) s
      fun ts name is _ => ∃ t, ts = [t] ∧ t.kind = .identifier ∧ name = nameOf t ∧ is = [] :=
    yields_expect fun t _ _ ht => yields_pure ⟨t, rfl, ht, rfl, rfl⟩
  refine yields_counted (hname.mono ?_)
  rintro ts name is rest - ⟨t, rfl, ht, rfl, rfl⟩
  exact ⟨by simp, t, rfl, ht, rfl, List.append_nil _⟩

theorem Parameters.reads {count : Nat} {ts : List Token} {names : List Name} {is : List Issue}
    (h : Parameters count ts names is) (rest : List Token) :
    ReadsItems parameter rest count ts names is := by
  induction h with
  | @last count name hn => exact .last (reads_parameter hn count _)
  | @more count name comma ts names is hn hc _ ih =>
    exact .more (reads_parameter hn count _) hc ih

theorem Parameters.begins {count : Nat} {ts : List Token} {names : List Name} {is : List Issue}
    (h : Parameters count ts names is) : ∃ t us, ts = t :: us ∧ t.kind = .identifier := by
  cases h with
  | last hn => exact ⟨_, _, rfl, hn⟩
  | more hn _ _ => exact ⟨_, _, rfl, hn⟩

theorem reads_parameters {ts rest : List Token} {names : List Name} {is : List Issue} {r : Token}
    (h : OptionalParameters ts names is) (hr : r.kind = .symbol .rightParen) :
    Reads parameters (ts ++ [r]) rest names is := by
  refine reads_look fun ending => ?_
  cases h with
  | absent =>
    have hnext : Stream.nextIs ⟨[] ++ [r] ++ rest, ending⟩ (.symbol .rightParen) = true := by
      simp [Stream.nextIs, hr]
    rw [if_pos hnext]
    have hend : Reads (pure [] >>= fun params => symbol .rightParen .parametersEnd >>= fun _ =>
        pure params) [r] rest ([] : List Name) [] :=
      Reads.bind (reads_pure [] _) (reads_expect hr (reads_pure _ rest))
    exact hend ending
  | present hp =>
    obtain ⟨t, us, rfl, ht⟩ := hp.begins
    have hnext : ¬ Stream.nextIs ⟨t :: us ++ [r] ++ rest, ending⟩ (.symbol .rightParen) = true := by
      simp [Stream.nextIs, ht]
    rw [if_neg hnext]
    have hlist := (hp.reads (r :: rest)).commaSeparated (headAvoids_cons (by simp [hr]))
    have hall : Reads (commaSeparated parameter >>= fun params =>
        symbol .rightParen .parametersEnd >>= fun _ => pure params) (t :: us ++ [r]) rest names is :=
      hlist.close (reads_expect hr (reads_pure _ rest))
    exact hall ending

theorem yields_parameters (s : Stream) :
    Yields parameters s fun ts names is _ => ∃ us r, ts = us ++ [r] ∧
      r.kind = .symbol .rightParen ∧ OptionalParameters us names is := by
  refine yields_look ?_
  split
  · refine Yields.bind (P := fun ts names is _ => ts = [] ∧ names = [] ∧ is = [])
      (yields_pure ⟨rfl, rfl, rfl⟩) ?_
    rintro ts names is rest - ⟨rfl, rfl, rfl⟩
    exact yields_expect fun r _ _ hr => yields_pure ⟨[], r, rfl, hr, .absent⟩
  · have hlist : Yields (commaSeparated parameter) s fun ts names is _ =>
        Parameters 0 ts names is := by
      refine yields_items (n := s.tokens.length)
        (I := fun count ts name is => ∃ t, ts = [t] ∧ t.kind = .identifier ∧ name = nameOf t ∧
          is = excess "parameters" count [t])
        (fun count s' _ => yields_parameter count s') ?_ ?_ (Nat.le_refl _)
      · rintro count ts name is ⟨t, rfl, ht, rfl, rfl⟩
        exact .last ht
      · rintro count ts name is comma us names js ⟨t, rfl, ht, rfl, rfl⟩ hc hrest
        exact .more ht hc hrest
    refine Yields.bind hlist fun us names is rest _ hp => ?_
    refine yields_expect fun r _ _ hr => yields_pure ⟨us, r, rfl, hr, ?_⟩
    rw [List.append_nil]
    exact .present hp

/-! ## Derived phrases are read -/

/-- The reader of statements with no more levels of nesting than `levels` has tokens. -/
def nestedStatement (levels : List Token) : Parser RawStmt := fun s =>
  statementWithin levels s

/-- The reader of declarations with no more levels of nesting than `levels` has tokens. -/
def nestedDeclaration (levels : List Token) : Parser (Option RawStmt) := fun s =>
  declarationWithin levels s

/-- The reader of statements over the readers one level deeper. -/
def statementAt (levels : List Token) : Parser RawStmt :=
  statementOver (nestedStatement levels) (nestedDeclaration levels)

/-- The reader of declarations over the readers one level deeper. -/
def declarationAt (levels : List Token) : Parser RawStmt :=
  declarationOver (statementAt levels) (nestedDeclaration levels)

theorem nestedStatement_cons (t : Token) (levels : List Token) :
    nestedStatement (t :: levels) = statementAt levels := rfl

theorem nestedDeclaration_cons (t : Token) (levels : List Token) :
    nestedDeclaration (t :: levels) = recovering (declarationAt levels) := rfl

/-- An `else` behind a dangling phrase would go on with it. -/
def MayFollow (dangling : Bool) (rest : List Token) : Prop :=
  dangling = true → HeadAvoids (· = .keyword .else) rest

/-- A reader of declarations that reads what the readers over enough levels read. -/
def Covers (item : Parser (Option RawStmt)) (n : Nat) : Prop :=
  ∀ ts rest stmt is, (ts ++ rest).length < n →
    (∀ levels, (ts ++ rest).length ≤ levels.length → Reads (declarationAt levels) ts rest stmt is) →
    Reads item ts rest (some stmt) is

/-- What a derivation makes its readers do, in front of what may follow. -/
def ReadablePhrase : (sort : PhraseSort) → List Token → sort.Tree → List Issue → Prop
  | .statement dangling, ts, stmt, is => ∀ levels rest, (ts ++ rest).length ≤ levels.length →
    MayFollow dangling rest → Reads (statementAt levels) ts rest stmt is
  | .declaration dangling, ts, stmt, is => ∀ levels rest, (ts ++ rest).length ≤ levels.length →
    MayFollow dangling rest → Reads (declarationAt levels) ts rest stmt is
  | .declarations, ts, stmts, is => ∀ item n rest, Covers item n → (ts ++ rest).length < n →
    HeadAvoids (· = .keyword .else) rest →
    ReadsEach item (· = .symbol .rightBrace) rest ts (stmts.map some) is
  | .function, ts, f, is => ∀ levels routine rest, (ts ++ rest).length ≤ levels.length →
    Reads (functionDeclaration (nestedDeclaration levels) routine) ts rest f is
  | .methods, ts, fs, is => ∀ levels rest, (ts ++ rest).length ≤ levels.length →
    ReadsEach (functionDeclaration (nestedDeclaration levels) .method)
      (· = .symbol .rightBrace) rest ts fs is

theorem reads_recovering {p : Parser RawStmt} {ts rest : List Token} {stmt : RawStmt}
    {is : List Issue} (h : Reads p ts rest stmt is) :
    Reads (recovering p) ts rest (some stmt) is := by
  intro ending
  simp only [recovering, h ending]

theorem covers_nested (levels : List Token) : Covers (nestedDeclaration levels) levels.length := by
  intro ts rest stmt is hlen h
  cases levels with
  | nil => exact absurd hlen (Nat.not_lt_zero _)
  | cons t levels =>
    rw [nestedDeclaration_cons]
    exact reads_recovering (h levels (Nat.le_of_lt_succ hlen))

theorem covers_declaration (n : Nat) : Covers declaration n := by
  intro ts rest stmt is _ h ending
  exact reads_recovering (h _ (Nat.le_refl _)) ending

theorem ReadablePhrase.nested {dangling : Bool} {ts rest levels : List Token} {stmt : RawStmt}
    {is : List Issue} (h : ReadablePhrase (.statement dangling) ts stmt is)
    (hlen : (ts ++ rest).length < levels.length) (hrest : MayFollow dangling rest) :
    Reads (nestedStatement levels) ts rest stmt is := by
  cases levels with
  | nil => exact absurd hlen (Nat.not_lt_zero _)
  | cons t levels =>
    rw [nestedStatement_cons]
    exact h levels rest (Nat.le_of_lt_succ hlen) hrest

theorem filterMap_id_map_some {α : Type} (as : List α) : (as.map some).filterMap id = as := by
  rw [List.filterMap_map]
  exact List.filterMap_some

/-- The declarations of a block, with its closing brace. -/
theorem ReadablePhrase.block {ts rest levels : List Token} {stmts : List RawStmt} {is : List Issue}
    (h : ReadablePhrase .declarations ts stmts is) {r : Token} (hr : r.kind = .symbol .rightBrace)
    (hlen : (ts ++ r :: rest).length < levels.length) :
    Reads (blockBody (nestedDeclaration levels)) (ts ++ [r]) rest stmts is := by
  have heach := h _ _ (r :: rest) (covers_nested levels) hlen (headAvoids_cons (by simp [hr]))
  refine Reads.close (heach.manyUntil hr) ?_
  refine reads_expect hr ?_
  rw [filterMap_id_map_some]
  exact reads_pure stmts rest

theorem reads_if {statement : Parser RawStmt} {l r : Token} {ts us rest : List Token}
    {condition : RawExpr} {thenPart : RawStmt} {is js : List Issue}
    (hl : l.kind = .symbol .leftParen) (hc : Expression (.ranked .assignment) ts condition is)
    (hr : r.kind = .symbol .rightParen) (hp : Reads statement us rest thenPart js)
    (hrest : HeadAvoids (· = .keyword .else) rest) :
    Reads (ifStatement statement) (l :: ts ++ r :: us) rest (.ifThen condition thenPart)
      (is ++ js) := by
  refine reads_expect hl (reads_closed (by rw [hr]; rfl) hc (reads_expect hr ?_))
  rw [← List.append_nil js]
  exact Reads.stay hp (reads_accept_none hrest (reads_pure _ rest))

theorem reads_ifElse {statement : Parser RawStmt} {l r other : Token} {ts us vs rest : List Token}
    {condition : RawExpr} {thenPart elsePart : RawStmt} {is js ks : List Issue}
    (hl : l.kind = .symbol .leftParen) (hc : Expression (.ranked .assignment) ts condition is)
    (hr : r.kind = .symbol .rightParen) (hp : Reads statement us (other :: vs ++ rest) thenPart js)
    (ho : other.kind = .keyword .else) (he : Reads statement vs rest elsePart ks) :
    Reads (ifStatement statement) (l :: ts ++ r :: us ++ other :: vs) rest
      (.ifElse condition thenPart elsePart) (is ++ js ++ ks) := by
  have h : Reads (ifStatement statement) (l :: (ts ++ r :: (us ++ other :: vs))) rest
      (.ifElse condition thenPart elsePart) (is ++ (js ++ ks)) := by
    refine reads_expect hl (reads_closed (by rw [hr]; rfl) hc (reads_expect hr ?_))
    exact Reads.bind hp (reads_accept ho (he.finish rfl))
  simpa only [List.append_assoc, List.cons_append] using h

theorem reads_while {statement : Parser RawStmt} {l r : Token} {ts us rest : List Token}
    {condition : RawExpr} {body : RawStmt} {is js : List Issue}
    (hl : l.kind = .symbol .leftParen) (hc : Expression (.ranked .assignment) ts condition is)
    (hr : r.kind = .symbol .rightParen) (hb : Reads statement us rest body js) :
    Reads (whileStatement statement) (l :: ts ++ r :: us) rest (.whileDo condition body)
      (is ++ js) :=
  reads_expect hl (reads_closed (by rw [hr]; rfl) hc (reads_expect hr (hb.finish rfl)))

/-- What a for statement reads behind its first clause. -/
def forTail (statement : Parser RawStmt) (keyword : Pos) (initializer : Option RawStmt) :
    Parser RawStmt :=
  optionalExpression .semicolon >>= fun condition => symbol .semicolon .loopConditionEnd >>= fun _ =>
    optionalExpression .rightParen >>= fun increment => symbol .rightParen .forClausesEnd >>= fun _ =>
      statement >>= fun body => pure (forLoop keyword initializer condition increment body)

/-- The reader of a for statement with its first clause told apart. -/
theorem forStatement_eq (statement : Parser RawStmt) (keyword : Pos) :
    forStatement statement keyword =
      symbol .leftParen .forStart >>= fun _ => accept (.symbol .semicolon) >>= fun
        | some _ => pure none >>= forTail statement keyword
        | none => accept (.keyword .var) >>= fun
          | some _ => (some <$> variableDeclaration) >>= forTail statement keyword
          | none => (some <$> expressionStatement) >>= forTail statement keyword := rfl

theorem reads_forTail {statement : Parser RawStmt} {keyword : Pos} {initializer : Option RawStmt}
    {semi r : Token} {us vs ws rest : List Token} {condition increment : Option RawExpr}
    {body : RawStmt} {js ks ls : List Issue} (hc : OptionalExpression us condition js)
    (hs : semi.kind = .symbol .semicolon) (hn : OptionalExpression vs increment ks)
    (hr : r.kind = .symbol .rightParen) (hb : Reads statement ws rest body ls) :
    Reads (forTail statement keyword initializer) (us ++ semi :: (vs ++ r :: ws)) rest
      (forLoop keyword initializer condition increment body) (js ++ (ks ++ ls)) := by
  refine Reads.bind (reads_optional rfl rfl hs hc) (reads_expect hs ?_)
  exact Reads.bind (reads_optional rfl rfl hr hn) (reads_expect hr (hb.finish rfl))

theorem reads_for {statement : Parser RawStmt} {keyword : Pos} {l semi r : Token}
    {ts us vs ws rest : List Token} {initializer : Option RawStmt}
    {condition increment : Option RawExpr} {body : RawStmt} {is js ks ls : List Issue}
    (hl : l.kind = .symbol .leftParen) (hi : Initializer ts initializer is)
    (hc : OptionalExpression us condition js) (hs : semi.kind = .symbol .semicolon)
    (hn : OptionalExpression vs increment ks) (hr : r.kind = .symbol .rightParen)
    (hb : Reads statement ws rest body ls) :
    Reads (forStatement statement keyword) (l :: ts ++ us ++ semi :: vs ++ r :: ws) rest
      (forLoop keyword initializer condition increment body) (is ++ js ++ ks ++ ls) := by
  have htail : ∀ initializer, Reads (forTail statement keyword initializer)
      (us ++ semi :: (vs ++ r :: ws)) rest
      (forLoop keyword initializer condition increment body) (js ++ (ks ++ ls)) :=
    fun _ => reads_forTail hc hs hn hr hb
  have h : Reads (forStatement statement keyword)
      (l :: (ts ++ (us ++ semi :: (vs ++ r :: ws)))) rest
      (forLoop keyword initializer condition increment body) (is ++ (js ++ (ks ++ ls))) := by
    rw [forStatement_eq]
    refine reads_expect hl ?_
    cases hi with
    | absent hsemi => exact reads_accept hsemi (Reads.bind (reads_pure none _) (htail none))
    | var ht hd =>
      refine reads_accept_other (by simp [ht]) (reads_accept ht ?_)
      exact Reads.bind (Reads.map (reads_variable hd)) (htail _)
    | expression he =>
      obtain ⟨t, vs, rfl, ht⟩ := he.begins
      refine reads_accept_other (ne_of_test ht rfl) (reads_accept_other (ne_of_test ht rfl) ?_)
      exact Reads.bind (Reads.map (reads_expressionStatement he)) (htail _)
  simpa only [List.append_assoc, List.cons_append] using h

theorem reads_function {levels : List Token} {routine : Routine} {name l r lb rb : Token}
    {ts us rest : List Token} {params : List Name} {body : List RawStmt} {is js : List Issue}
    (hn : name.kind = .identifier) (hl : l.kind = .symbol .leftParen)
    (hp : OptionalParameters ts params is) (hr : r.kind = .symbol .rightParen)
    (hlb : lb.kind = .symbol .leftBrace)
    (hb : Reads (blockBody (nestedDeclaration levels)) (us ++ [rb]) rest body js) :
    Reads (functionDeclaration (nestedDeclaration levels) routine)
      (name :: l :: ts ++ r :: lb :: us ++ [rb]) rest (.mk (nameOf name) params body)
      (is ++ js) := by
  have h : Reads (functionDeclaration (nestedDeclaration levels) routine)
      (name :: l :: (ts ++ [r] ++ lb :: (us ++ [rb]))) rest (.mk (nameOf name) params body)
      (is ++ js) := by
    refine reads_expect hn (reads_expect hl ?_)
    exact Reads.bind (reads_parameters hp hr) (reads_expect hlb (hb.finish rfl))
  simpa only [List.append_assoc, List.cons_append, List.nil_append] using h

/-- What a class declaration reads behind its superclass. -/
def classTail (declaration : Parser (Option RawStmt)) (name : Token)
    (superclass : Option (Reference Unit)) : Parser RawStmt :=
  symbol .leftBrace .classBodyStart >>= fun _ =>
    manyUntil (.symbol .rightBrace) (functionDeclaration declaration .method) >>= fun methods =>
      symbol .rightBrace .classBodyEnd >>= fun _ => pure (.classDecl (nameOf name) superclass methods)

/-- The reader of a class declaration with its superclass told apart. -/
theorem classDeclaration_eq (declaration : Parser (Option RawStmt)) :
    classDeclaration declaration =
      expect .identifier .className >>= fun name => accept (.symbol .less) >>= fun
        | none => pure none >>= classTail declaration name
        | some _ => ((some ∘ referenceAt) <$> expect .identifier .superclassName) >>=
          classTail declaration name := rfl

theorem reads_class {levels : List Token} {name l r : Token} {ts us rest : List Token}
    {superclass : Option (Reference Unit)} {methods : List (Function Unit)} {is : List Issue}
    (hn : name.kind = .identifier) (hs : Superclass ts superclass)
    (hl : l.kind = .symbol .leftBrace)
    (hm : ReadsEach (functionDeclaration (nestedDeclaration levels) .method)
      (· = .symbol .rightBrace) (r :: rest) us methods is) (hr : r.kind = .symbol .rightBrace) :
    Reads (classDeclaration (nestedDeclaration levels)) (name :: ts ++ l :: us ++ [r]) rest
      (.classDecl (nameOf name) superclass methods) is := by
  have htail : ∀ superclass, Reads (classTail (nestedDeclaration levels) name superclass)
      (l :: (us ++ [r])) rest (.classDecl (nameOf name) superclass methods) is := fun superclass =>
    reads_expect hl (Reads.close (hm.manyUntil hr) (reads_expect hr (reads_pure _ rest)))
  rw [classDeclaration_eq, List.append_assoc]
  refine reads_expect hn ?_
  cases hs with
  | absent =>
    refine reads_accept_other (by simp [hl]) ?_
    exact Reads.bind (reads_pure none _) (htail none)
  | @present less super hless hsuper =>
    refine reads_accept hless ?_
    have hname : Reads (expect .identifier .superclassName >>= fun t => pure (some (referenceAt t)))
        [super] (l :: (us ++ [r]) ++ rest) (some (referenceAt super)) [] :=
      reads_expect hsuper (reads_pure _ _)
    exact Reads.bind hname (htail (some (referenceAt super)))

/-- What is derived is read. -/
theorem Phrase.readable {sort : PhraseSort} {ts : List Token} {tree : sort.Tree} {is : List Issue}
    (h : Phrase sort ts tree is) : ReadablePhrase sort ts tree is := by
  induction h with
  | expression he =>
    intro levels rest _ _
    obtain ⟨t, us, rfl, ht⟩ := he.begins
    refine reads_accept_other (ne_of_test ht rfl) ?_
    refine reads_accept_other (ne_of_test ht rfl) ?_
    refine reads_accept_other (ne_of_test ht rfl) ?_
    refine reads_accept_other (ne_of_test ht rfl) ?_
    refine reads_accept_other (ne_of_test ht rfl) ?_
    refine reads_accept_other (ne_of_test ht rfl) ?_
    exact reads_expressionStatement he
  | print ht he hs =>
    intro levels rest _ _
    refine reads_accept_other (by simp [ht]) (reads_accept_other (by simp [ht]) ?_)
    exact reads_accept ht (reads_print he hs)
  | giveBack ht hv hs =>
    intro levels rest _ _
    refine reads_accept_other (by simp [ht]) (reads_accept_other (by simp [ht]) ?_)
    refine reads_accept_other (by simp [ht]) ?_
    exact reads_accept ht (reads_return hv hs _)
  | @block l r ts body is hl _ hr ih =>
    intro levels rest hlen _
    refine reads_accept_other (by simp [hl]) (reads_accept_other (by simp [hl]) ?_)
    refine reads_accept_other (by simp [hl]) (reads_accept_other (by simp [hl]) ?_)
    refine reads_accept_other (by simp [hl]) (reads_accept hl (Reads.map ?_))
    refine ReadablePhrase.block ih hr ?_
    simp only [List.length_append, List.length_cons, List.length_nil] at hlen ⊢
    omega
  | @ifThen t l r ts us condition thenPart is js dangling ht hl hc hr _ ih =>
    intro levels rest hlen hrest
    refine reads_accept_other (by simp [ht]) (reads_accept ht ?_)
    refine reads_if hl hc hr (ReadablePhrase.nested ih ?_ fun _ => hrest rfl) (hrest rfl)
    simp only [List.length_append, List.length_cons] at hlen ⊢
    omega
  | @ifElse t l r other ts us vs condition thenPart elsePart is js ks dangling ht hl hc hr _ ho _
      ihthen ihelse =>
    intro levels rest hlen hrest
    refine reads_accept_other (by simp [ht]) (reads_accept ht ?_)
    refine reads_ifElse hl hc hr (ReadablePhrase.nested ihthen ?_ ?_) ho
      (ReadablePhrase.nested ihelse ?_ hrest)
    · simp only [List.length_append, List.length_cons] at hlen ⊢
      omega
    · exact fun h => absurd h (by simp)
    · simp only [List.length_append, List.length_cons] at hlen ⊢
      omega
  | @whileDo t l r ts us condition body is js dangling ht hl hc hr _ ih =>
    intro levels rest hlen hrest
    refine reads_accept_other (by simp [ht]) (reads_accept_other (by simp [ht]) ?_)
    refine reads_accept_other (by simp [ht]) (reads_accept_other (by simp [ht]) ?_)
    refine reads_accept ht (reads_while hl hc hr (ReadablePhrase.nested ih ?_ hrest))
    simp only [List.length_append, List.length_cons] at hlen ⊢
    omega
  | @forDo t l semi r ts us vs ws initializer condition increment body is js ks ls dangling ht hl hi
      hc hs hn hr _ ih =>
    intro levels rest hlen hrest
    refine reads_accept ht (reads_for hl hi hc hs hn hr (ReadablePhrase.nested ih ?_ hrest))
    simp only [List.length_append, List.length_cons] at hlen ⊢
    omega
  | @statement ts stmt is dangling hs ih =>
    intro levels rest hlen hrest
    obtain ⟨t, us, rfl, ht⟩ := hs.begins
    refine reads_accept_other (ne_of_test ht rfl) ?_
    refine reads_accept_other (ne_of_test ht rfl) ?_
    refine reads_accept_other (ne_of_test ht rfl) ?_
    exact ih levels rest hlen hrest
  | varDecl ht hd =>
    intro levels rest _ _
    refine reads_accept_other (by simp [ht]) (reads_accept_other (by simp [ht]) ?_)
    exact reads_accept ht (reads_variable hd)
  | @function t ts f is ht _ ih =>
    intro levels rest hlen _
    refine reads_accept_other (by simp [ht]) (reads_accept ht (Reads.map ?_))
    refine ih levels .function rest ?_
    simp only [List.length_append, List.length_cons] at hlen ⊢
    omega
  | @classDecl t name l r ts us superclass methods is ht hn hs hl _ hr ih =>
    intro levels rest hlen _
    refine reads_accept ht (reads_class hn hs hl (ih levels (r :: rest) ?_) hr)
    simp only [List.length_append, List.length_cons, List.length_nil] at hlen ⊢
    omega
  | @routine name l r lb rb ts us params body is js hn hl hp hr hlb _ hrb ih =>
    intro levels routine rest hlen
    refine reads_function hn hl hp hr hlb (ReadablePhrase.block ih hrb ?_)
    simp only [List.length_append, List.length_cons, List.length_nil] at hlen ⊢
    omega
  | noDeclarations => exact fun _ _ _ _ _ _ => .nil
  | @declarations ts us stmt stmts is js dangling first others ih ihrest =>
    intro item n rest hitem hlen hrest
    obtain ⟨t, vs, rfl, ht⟩ := first.begins
    have hfollow : HeadAvoids (· = .keyword .else) (us ++ rest) := by
      cases us with
      | nil => exact hrest
      | cons u us => exact headAvoids_cons (others.declarations_not_else u rfl)
    rw [List.append_assoc] at hlen
    refine .cons (hitem _ _ stmt is hlen fun levels hlevels => ih levels _ hlevels fun _ => hfollow)
      ?_ (ihrest item n rest hitem ?_ hrest)
    · intro hk
      rw [hk] at ht
      exact absurd ht (by decide)
    · simp only [List.length_append, List.length_cons] at hlen ⊢
      omega
  | noMethods => exact fun _ _ _ => .nil
  | @methods ts us f fs is js first _ ih ihrest =>
    intro levels rest hlen
    obtain ⟨t, vs, rfl, ht⟩ := first.begins
    rw [List.append_assoc] at hlen
    refine .cons (ih levels .method _ hlen) (by simp [ht]) (ihrest levels rest ?_)
    simp only [List.length_append, List.length_cons] at hlen ⊢
    omega

/-! ## Phrases that are read are derived -/

/-- What a reader takes without a syntax error is a statement, with nothing behind it that would go
on with it. -/
def DerivesStatement (p : Parser RawStmt) (n : Nat) : Prop :=
  ∀ s, s.tokens.length < n → Yields p s fun ts stmt is rest =>
    ∃ dangling, Phrase (.statement dangling) ts stmt is ∧ MayFollow dangling rest.tokens

/-- The same of declarations, for a reader that may leave one out. -/
def DerivesDeclaration (p : Parser (Option RawStmt)) (n : Nat) : Prop :=
  ∀ s, s.tokens.length < n → Yields p s fun ts o is rest =>
    ∃ stmt dangling, o = some stmt ∧ Phrase (.declaration dangling) ts stmt is ∧
      MayFollow dangling rest.tokens

theorem yields_recovering {p : Parser RawStmt} {s : Stream}
    {Q : List Token → Option RawStmt → List Issue → Stream → Prop}
    (h : Yields p s fun ts stmt is rest => Q ts (some stmt) is rest) :
    Yields (recovering p) s Q := by
  rcases h with hf | ⟨ts, stmt, is, rest, heq, hts, hQ⟩
  · left
    simp only [recovering]
    split <;> exact hf
  · exact Or.inr ⟨ts, some stmt, is, rest, by simp only [recovering, heq], hts, hQ⟩

/-- Declarations up to a stop. -/
theorem yields_declarations {item : Parser (Option RawStmt)} {halt : Stream → Bool} {n : Nat}
    (hend : ∀ ending, halt ⟨[], ending⟩ = true) (h : DerivesDeclaration item n) {s : Stream}
    (hs : s.tokens.length < n) :
    Yields (many (eachUntil halt item)) s fun ts os is rest =>
      (∃ stmts, os = stmts.map some ∧ Phrase .declarations ts stmts is) ∧ halt rest = true := by
  refine yields_each (n := s.tokens.length)
    (I := fun ts o is => ∃ stmt dangling, o = some stmt ∧ Phrase (.declaration dangling) ts stmt is)
    (L := fun ts os is => ∃ stmts, os = stmts.map some ∧ Phrase .declarations ts stmts is)
    hend (fun s' hs' => ?_) ?_ ⟨[], rfl, .noDeclarations⟩ ?_ (Nat.le_refl _)
  · refine (h s' (Nat.lt_of_le_of_lt hs' hs)).mono ?_
    rintro ts o is rest - ⟨stmt, dangling, rfl, hd, -⟩
    exact ⟨stmt, dangling, rfl, hd⟩
  · rintro ts o is ⟨stmt, dangling, rfl, hd⟩
    obtain ⟨t, us, rfl, -⟩ := hd.begins
    simp
  · rintro ts o is us os js ⟨stmt, dangling, rfl, hd⟩ ⟨stmts, rfl, hrest⟩
    exact ⟨stmt :: stmts, rfl, .declarations hd hrest⟩

theorem yields_block {declaration : Parser (Option RawStmt)} {n : Nat}
    (h : DerivesDeclaration declaration n) {s : Stream} (hs : s.tokens.length < n) :
    Yields (blockBody declaration) s fun ts stmts is _ => ∃ us r, ts = us ++ [r] ∧
      r.kind = .symbol .rightBrace ∧ Phrase .declarations us stmts is := by
  refine Yields.bind (yields_declarations (fun _ => rfl) h hs) ?_
  rintro us os is rest - ⟨⟨stmts, rfl, hd⟩, -⟩
  refine yields_expect fun r _ _ hr => yields_pure ⟨us, r, rfl, hr, ?_⟩
  rw [filterMap_id_map_some, List.append_nil]
  exact hd

theorem yields_function {declaration : Parser (Option RawStmt)} {n : Nat}
    (h : DerivesDeclaration declaration n) {s : Stream} (hs : s.tokens.length < n)
    (routine : Routine) :
    Yields (functionDeclaration declaration routine) s fun ts f is _ => Phrase .function ts f is := by
  refine yields_expect fun name ts hts hn => yields_expect fun l us hus hl => ?_
  refine Yields.bind (yields_parameters _) ?_
  rintro ps params is rest hps ⟨vs, r, rfl, hr, hp⟩
  refine yields_expect fun lb ws hws hlb => ?_
  have hlen : ws.length < n := by
    simp only at hus hps
    rw [hts, hus, hps, hws] at hs
    simp only [List.length_append, List.length_cons] at hs
    omega
  refine Yields.bind (yields_block h hlen) ?_
  rintro bs body js rest' - ⟨xs, rb, rfl, hrb, hb⟩
  refine yields_pure ?_
  have := Phrase.routine hn hl hp hr hlb hb hrb
  simpa using this

theorem yields_methods {declaration : Parser (Option RawStmt)} {n : Nat}
    (h : DerivesDeclaration declaration n) {s : Stream} (hs : s.tokens.length < n) :
    Yields (manyUntil (.symbol .rightBrace) (functionDeclaration declaration .method)) s
      fun ts fs is _ => Phrase .methods ts fs is := by
  rw [manyUntil_eq]
  refine (yields_each (n := s.tokens.length) (I := fun ts f is => Phrase .function ts f is)
    (L := fun ts fs is => Phrase .methods ts fs is) (fun _ => rfl)
    (fun s' hs' => yields_function h (Nat.lt_of_le_of_lt hs' hs) .method) ?_ .noMethods ?_
    (Nat.le_refl _)).mono fun _ _ _ _ _ h => h.1
  · intro ts f is hf
    obtain ⟨t, us, rfl, -⟩ := hf.begins
    simp
  · exact fun _ _ _ _ _ _ hf hrest => .methods hf hrest

theorem yields_class {declaration : Parser (Option RawStmt)} {n : Nat}
    (h : DerivesDeclaration declaration n) {s : Stream} (hs : s.tokens.length < n) {t : Token}
    (ht : t.kind = .keyword .class) :
    Yields (classDeclaration declaration) s fun ts stmt is _ =>
      Phrase (.declaration false) (t :: ts) stmt is := by
  have htail : ∀ name : Token, name.kind = .identifier → ∀ us superclass (rest : Stream),
      Superclass us superclass → rest.tokens.length < n →
      Yields (classTail declaration name superclass) rest fun vs stmt is _ =>
        Phrase (.declaration false) (t :: name :: us ++ vs) stmt is := by
    intro name hn us superclass rest hsuper hlen
    refine yields_expect fun l ws hws hl => ?_
    have hlen' : ws.length < n := by
      rw [hws, List.length_cons] at hlen
      omega
    refine Yields.bind (yields_methods h hlen') fun xs methods is rest' _ hm => ?_
    refine yields_expect fun r _ _ hr => yields_pure ?_
    have := Phrase.classDecl ht hn hsuper hl hm hr
    simpa using this
  rw [classDeclaration_eq]
  refine yields_expect fun name ts hts hn => ?_
  have hlen : ts.length < n := by
    rw [hts, List.length_cons] at hs
    omega
  refine yields_accept (fun less us hus hless => ?_) fun _ => ?_
  · have hname : Yields (expect .identifier .superclassName >>= fun t => pure (some (referenceAt t)))
        ⟨us, s.ending⟩ fun vs superclass is rest => is = [] ∧ ∃ super, vs = [super] ∧
          super.kind = .identifier ∧ superclass = some (referenceAt super) :=
      yields_expect fun super _ _ hsuper => yields_pure ⟨rfl, super, rfl, hsuper, rfl⟩
    refine Yields.bind hname ?_
    rintro vs superclass is rest hvs ⟨rfl, super, rfl, hsuper, rfl⟩
    have hlen' : rest.tokens.length < n := by
      simp only at hus hvs
      rw [hus, hvs] at hlen
      simp only [List.length_append, List.length_cons] at hlen
      omega
    refine (htail name hn [less, super] _ rest (.present hless hsuper) hlen').mono ?_
    intro ws stmt js _ _ hstmt
    simpa using hstmt
  · refine Yields.bind (P := fun us superclass is rest => us = [] ∧ superclass = none ∧ is = [] ∧
      rest = ⟨ts, s.ending⟩) (yields_pure ⟨rfl, rfl, rfl, rfl⟩) ?_
    rintro us superclass is rest - ⟨rfl, rfl, rfl, rfl⟩
    refine (htail name hn [] none _ .absent hlen).mono ?_
    intro ws stmt js _ _ hstmt
    simpa using hstmt

theorem yields_if {statement : Parser RawStmt} {n : Nat} (h : DerivesStatement statement n)
    {s : Stream} (hs : s.tokens.length < n) {t : Token} (ht : t.kind = .keyword .if) :
    Yields (ifStatement statement) s fun ts stmt is rest =>
      ∃ dangling, Phrase (.statement dangling) (t :: ts) stmt is ∧
        MayFollow dangling rest.tokens := by
  refine yields_expect fun l ts hts hl => ?_
  refine Yields.bind (yields_expression _) fun us condition is rest hus hc => ?_
  refine yields_expect fun r vs hvs hr => ?_
  have hlen : vs.length < n := by
    simp only at hus
    rw [hts, hus, hvs] at hs
    simp only [List.length_append, List.length_cons] at hs
    omega
  refine Yields.bind (h ⟨vs, _⟩ hlen) ?_
  rintro ws thenPart js rest' hws ⟨dangling, hthen, hfollow⟩
  refine yields_accept (fun other xs hxs ho => ?_) fun hmiss => ?_
  · -- An `else` can not follow a dangling statement, so this one was not dangling.
    cases dangling with
    | true => exact absurd ho (hfollow rfl other (by rw [hxs, List.head?_cons]))
    | false =>
      have hlen' : xs.length < n := by
        simp only at hws
        rw [hws, hxs] at hlen
        simp only [List.length_append, List.length_cons] at hlen
        omega
      refine Yields.bind (h ⟨xs, _⟩ hlen') ?_
      rintro zs elsePart ks rest'' - ⟨dangling, helse, hfollow'⟩
      refine yields_pure ⟨dangling, ?_, hfollow'⟩
      have := Phrase.ifElse ht hl hc hr hthen ho helse
      simpa using this
  · refine yields_pure ⟨true, ?_, fun _ => hmiss⟩
    have := Phrase.ifThen ht hl hc hr hthen
    simpa using this

theorem yields_while {statement : Parser RawStmt} {n : Nat} (h : DerivesStatement statement n)
    {s : Stream} (hs : s.tokens.length < n) {t : Token} (ht : t.kind = .keyword .while) :
    Yields (whileStatement statement) s fun ts stmt is rest =>
      ∃ dangling, Phrase (.statement dangling) (t :: ts) stmt is ∧
        MayFollow dangling rest.tokens := by
  refine yields_expect fun l ts hts hl => ?_
  refine Yields.bind (yields_expression _) fun us condition is rest hus hc => ?_
  refine yields_expect fun r vs hvs hr => ?_
  have hlen : vs.length < n := by
    simp only at hus
    rw [hts, hus, hvs] at hs
    simp only [List.length_append, List.length_cons] at hs
    omega
  refine Yields.bind (h ⟨vs, _⟩ hlen) ?_
  rintro ws body js rest' - ⟨dangling, hbody, hfollow⟩
  refine yields_pure ⟨dangling, ?_, hfollow⟩
  have := Phrase.whileDo ht hl hc hr hbody
  simpa using this

theorem yields_forTail {statement : Parser RawStmt} {n : Nat} (h : DerivesStatement statement n)
    {s : Stream} (hs : s.tokens.length < n) {t l : Token} (ht : t.kind = .keyword .for)
    (hl : l.kind = .symbol .leftParen) {ts : List Token} {initializer : Option RawStmt}
    {is : List Issue} (hi : Initializer ts initializer is) :
    Yields (forTail statement t.pos initializer) s fun us stmt js rest =>
      ∃ dangling, Phrase (.statement dangling) (t :: l :: ts ++ us) stmt (is ++ js) ∧
        MayFollow dangling rest.tokens := by
  refine Yields.bind (yields_optional _ _) fun us condition js rest hus hc => ?_
  refine yields_expect fun semi vs hvs hsemi => ?_
  refine Yields.bind (yields_optional _ _) fun ws increment ks rest' hws hn => ?_
  refine yields_expect fun r xs hxs hr => ?_
  have hlen : xs.length < n := by
    simp only at hws
    rw [hus, hvs, hws, hxs] at hs
    simp only [List.length_append, List.length_cons] at hs
    omega
  refine Yields.bind (h ⟨xs, _⟩ hlen) ?_
  rintro zs body ls rest'' - ⟨dangling, hbody, hfollow⟩
  refine yields_pure ⟨dangling, ?_, hfollow⟩
  have := Phrase.forDo ht hl hi hc hsemi hn hr hbody
  simpa using this

theorem yields_for {statement : Parser RawStmt} {n : Nat} (h : DerivesStatement statement n)
    {s : Stream} (hs : s.tokens.length < n) {t : Token} (ht : t.kind = .keyword .for) :
    Yields (forStatement statement t.pos) s fun ts stmt is rest =>
      ∃ dangling, Phrase (.statement dangling) (t :: ts) stmt is ∧
        MayFollow dangling rest.tokens := by
  rw [forStatement_eq]
  refine yields_expect fun l ts hts hl => ?_
  have hlen : ts.length < n := by
    rw [hts, List.length_cons] at hs
    omega
  have hrest : ∀ us vs : List Token, ts = us ++ vs → vs.length < n := by
    rintro us vs rfl
    rw [List.length_append] at hlen
    omega
  refine yields_accept (fun semi us hus hsemi => ?_) fun _ => ?_
  · refine Yields.bind (P := fun vs o is rest => vs = [] ∧ o = none ∧ is = [] ∧
      rest = ⟨us, s.ending⟩) (yields_pure ⟨rfl, rfl, rfl, rfl⟩) ?_
    rintro vs o is rest - ⟨rfl, rfl, rfl, rfl⟩
    simp only at hus
    exact yields_forTail h (hrest [semi] us hus) ht hl (.absent hsemi)
  · refine yields_accept (fun var us hus hvar => ?_) fun _ => ?_
    · refine Yields.bind (Yields.map (Q := fun vs o is _ => ∃ stmt, o = some stmt ∧
        VariableDeclaration vs stmt is) ((yields_variable _).mono
          fun _ stmt _ _ _ hd => ⟨stmt, rfl, hd⟩)) ?_
      rintro vs o is rest hvs ⟨stmt, rfl, hd⟩
      simp only at hus hvs
      rw [hvs] at hus
      exact yields_forTail h (hrest (var :: vs) _ hus) ht hl (.var hvar hd)
    · refine Yields.bind (Yields.map (Q := fun vs o is _ => ∃ stmt, o = some stmt ∧
        ExpressionStatement vs stmt is) ((yields_expressionStatement _).mono
          fun _ stmt _ _ _ he => ⟨stmt, rfl, he⟩)) ?_
      rintro vs o is rest hvs ⟨stmt, rfl, he⟩
      exact yields_forTail h (hrest vs _ hvs) ht hl (.expression he)

theorem yields_statementOver {statement : Parser RawStmt} {declaration : Parser (Option RawStmt)}
    {n : Nat} (hs : DerivesStatement statement n) (hd : DerivesDeclaration declaration n) :
    DerivesStatement (statementOver statement declaration) (n + 1) := by
  intro s hlen
  have hrest : ∀ (t : Token) (ts : List Token), s.tokens = t :: ts → ts.length < n := by
    intro t ts hts
    rw [hts, List.length_cons] at hlen
    omega
  refine yields_accept (fun t ts hts ht => yields_for hs (hrest t ts hts) ht) fun _ => ?_
  refine yields_accept (fun t ts hts ht => yields_if hs (hrest t ts hts) ht) fun _ => ?_
  refine yields_accept (fun t ts hts ht => ?_) fun _ => ?_
  · refine Yields.bind (yields_expression _) fun us e is _ _ he => ?_
    refine yields_expect fun semi _ _ hsemi => yields_pure ⟨false, ?_, fun h => absurd h (by simp)⟩
    rw [List.append_nil]
    exact .print ht he hsemi
  refine yields_accept (fun t ts hts ht => ?_) fun _ => ?_
  · refine Yields.bind (yields_optional _ _) fun us value is _ _ hv => ?_
    refine yields_expect fun semi _ _ hsemi => yields_pure ⟨false, ?_, fun h => absurd h (by simp)⟩
    rw [List.append_nil]
    exact .giveBack ht hv hsemi
  refine yields_accept (fun t ts hts ht => yields_while hs (hrest t ts hts) ht) fun _ => ?_
  refine yields_accept (fun l ts hts hl => Yields.map ?_) fun _ => ?_
  · refine (yields_block hd (hrest l ts hts)).mono ?_
    rintro us body is rest - ⟨vs, r, rfl, hr, hb⟩
    exact ⟨false, .block hl hb hr, fun h => absurd h (by simp)⟩
  · exact (yields_expressionStatement s).mono fun ts stmt is _ _ he =>
      ⟨false, .expression he, fun h => absurd h (by simp)⟩

theorem yields_declarationOver {statement : Parser RawStmt}
    {declaration : Parser (Option RawStmt)} {n : Nat} (hs : DerivesStatement statement (n + 1))
    (hd : DerivesDeclaration declaration n) {s : Stream} (hlen : s.tokens.length < n + 1) :
    Yields (declarationOver statement declaration) s fun ts stmt is rest =>
      ∃ dangling, Phrase (.declaration dangling) ts stmt is ∧ MayFollow dangling rest.tokens := by
  have hrest : ∀ (t : Token) (ts : List Token), s.tokens = t :: ts → ts.length < n := by
    intro t ts hts
    rw [hts, List.length_cons] at hlen
    omega
  refine yields_accept (fun t ts hts ht => ?_) fun _ => ?_
  · exact (yields_class hd (hrest t ts hts) ht).mono fun us stmt is _ _ h =>
      ⟨false, h, fun h => absurd h (by simp)⟩
  refine yields_accept (fun t ts hts ht => Yields.map ?_) fun _ => ?_
  · exact (yields_function hd (hrest t ts hts) .function).mono fun us f is _ _ hf =>
      ⟨false, .function ht hf, fun h => absurd h (by simp)⟩
  refine yields_accept (fun t ts hts ht => ?_) fun _ => ?_
  · exact (yields_variable _).mono fun us stmt is _ _ hv =>
      ⟨false, .varDecl ht hv, fun h => absurd h (by simp)⟩
  · refine (hs s hlen).mono ?_
    rintro ts stmt is rest - ⟨dangling, h, hfollow⟩
    exact ⟨dangling, .statement h, hfollow⟩

/-- What the readers over any levels take, if these are more than the tokens, is derived. -/
theorem derives_within : ∀ levels : List Token,
    DerivesStatement (nestedStatement levels) levels.length ∧
      DerivesDeclaration (nestedDeclaration levels) levels.length
  | [] => ⟨fun _ h => absurd h (Nat.not_lt_zero _), fun _ h => absurd h (Nat.not_lt_zero _)⟩
  | t :: levels => by
    obtain ⟨hs, hd⟩ := derives_within levels
    refine ⟨yields_statementOver hs hd, fun s hlen => ?_⟩
    rw [nestedDeclaration_cons]
    refine yields_recovering ?_
    refine (yields_declarationOver (yields_statementOver hs hd) hd hlen).mono ?_
    rintro ts stmt is rest - ⟨dangling, h, hfollow⟩
    exact ⟨stmt, dangling, rfl, h, hfollow⟩

/-! ## Programs -/

theorem derives_declaration (n : Nat) : DerivesDeclaration declaration n := fun s _ =>
  ((derives_within s.all).2 s (Nat.lt_succ_self _)).congr rfl

theorem program_eq :
    program = many (eachUntil Stream.atEnd declaration) >>= fun body =>
      pure (body.filterMap id) := rfl

/-- A program of the grammar is read as it is derived. -/
theorem reads_program {ts : List Token} {stmts : List RawStmt} {is : List Issue}
    (h : Phrase .declarations ts stmts is) : Reads program ts [] stmts is := by
  have heach := h.readable declaration (ts.length + 1) [] (covers_declaration _)
    (by rw [List.append_nil]; exact Nat.lt_succ_self _) fun t ht => absurd ht (by simp)
  have hmany : Reads (many (eachUntil Stream.atEnd declaration)) ts [] (stmts.map some) is :=
    heach.many (fun _ => rfl) fun _ _ _ _ => rfl
  rw [program_eq]
  exact hmany.finish (by rw [filterMap_id_map_some])

/-- A program that is read without a syntax error is derived. -/
theorem yields_program (s : Stream) :
    Yields program s fun ts stmts is rest => Phrase .declarations ts stmts is ∧ rest.tokens = [] := by
  rw [program_eq]
  refine Yields.bind (yields_declarations (fun _ => rfl) (derives_declaration _)
    (Nat.lt_succ_self _)) ?_
  rintro ts os is rest - ⟨⟨stmts, rfl, hd⟩, hend⟩
  refine yields_pure ⟨?_, by simpa [Stream.atEnd] using hend⟩
  rw [filterMap_id_map_some, List.append_nil, List.append_nil]
  exact hd

/-! ## What a derivation complains about -/

/-- What may be wrong with a text of the grammar. -/
def Tolerated (is : List Issue) : Prop :=
  ∀ i ∈ is, i.complaint = .invalidTarget ∨ i.complaint = .tooMany "arguments" ∨
    i.complaint = .tooMany "parameters"

theorem tolerated_nil : Tolerated [] :=
  fun _ h => absurd h List.not_mem_nil

theorem Tolerated.append {is js : List Issue} (hi : Tolerated is) (hj : Tolerated js) :
    Tolerated (is ++ js) :=
  fun i h => (List.mem_append.mp h).elim (hi i) (hj i)

theorem complaint_atToken (t : Token) (c : Complaint) : (Issue.atToken t c).complaint = c := by
  unfold Issue.atToken
  split <;> rfl

theorem tolerated_target (t : Token) : Tolerated [.atToken t .invalidTarget] := by
  intro i hi
  rw [List.mem_singleton.mp hi]
  exact Or.inl (complaint_atToken t _)

theorem tolerated_excess {what : String} (h : what = "arguments" ∨ what = "parameters")
    (count : Nat) (item : List Token) : Tolerated (excess what count item) := by
  intro i hi
  unfold excess at hi
  split at hi
  · obtain ⟨t, -, rfl⟩ := List.mem_map.mp hi
    rw [complaint_atToken]
    rcases h with rfl | rfl
    · exact Or.inr (Or.inl rfl)
    · exact Or.inr (Or.inr rfl)
  · exact absurd hi List.not_mem_nil

theorem Tolerated.not_faulty {is : List Issue} (h : Tolerated is) : ¬ Faulty is := by
  rintro ⟨i, hi, what, hw⟩
  rcases h i hi with h | h | h <;> rw [hw] at h <;> cases h

theorem Expression.tolerated {sort : ExpressionSort} {ts : List Token} {tree : sort.Tree}
    {is : List Issue} (h : Expression sort ts tree is) : Tolerated is := by
  induction h with
  | tighter _ ih | grouping _ _ _ ih | get _ _ _ ih | callNone _ _ _ ih | unary _ _ ih => exact ih
  | literal | this | var | super => exact tolerated_nil
  | call _ _ _ _ ih ihargs => exact ih.append ihargs
  | binary _ _ _ ihl ihr | logical _ _ _ ihl ihr | assignVar _ _ _ ihl ihr
  | assignField _ _ _ ihl ihr => exact ihl.append ihr
  | assignOther _ _ _ _ _ ihl ihr => exact (ihl.append ihr).append (tolerated_target _)
  | last _ ih => exact (tolerated_excess (Or.inl rfl) _ _).append ih
  | more _ _ _ ih ihrest => exact ((tolerated_excess (Or.inl rfl) _ _).append ih).append ihrest

theorem OptionalExpression.tolerated {ts : List Token} {e : Option RawExpr} {is : List Issue}
    (h : OptionalExpression ts e is) : Tolerated is := by
  cases h with
  | absent => exact tolerated_nil
  | present he => exact he.tolerated

theorem ExpressionStatement.tolerated {ts : List Token} {stmt : RawStmt} {is : List Issue}
    (h : ExpressionStatement ts stmt is) : Tolerated is := by
  obtain ⟨he, -⟩ := h
  exact he.tolerated

theorem VariableDeclaration.tolerated {ts : List Token} {stmt : RawStmt} {is : List Issue}
    (h : VariableDeclaration ts stmt is) : Tolerated is := by
  cases h with
  | bare => exact tolerated_nil
  | initialized _ _ he _ => exact he.tolerated

theorem Initializer.tolerated {ts : List Token} {stmt : Option RawStmt} {is : List Issue}
    (h : Initializer ts stmt is) : Tolerated is := by
  cases h with
  | absent => exact tolerated_nil
  | var _ hd => exact hd.tolerated
  | expression he => exact he.tolerated

theorem Parameters.tolerated {count : Nat} {ts : List Token} {names : List Name} {is : List Issue}
    (h : Parameters count ts names is) : Tolerated is := by
  induction h with
  | last => exact tolerated_excess (Or.inr rfl) _ _
  | more _ _ _ ih => exact (tolerated_excess (Or.inr rfl) _ _).append ih

theorem OptionalParameters.tolerated {ts : List Token} {names : List Name} {is : List Issue}
    (h : OptionalParameters ts names is) : Tolerated is := by
  cases h with
  | absent => exact tolerated_nil
  | present hp => exact hp.tolerated

/-- A text of the grammar has no syntax error. -/
theorem Phrase.tolerated {sort : PhraseSort} {ts : List Token} {tree : sort.Tree} {is : List Issue}
    (h : Phrase sort ts tree is) : Tolerated is := by
  induction h with
  | expression he => exact he.tolerated
  | print _ he _ => exact he.tolerated
  | giveBack _ hv _ => exact hv.tolerated
  | block _ _ _ ih | statement _ ih | function _ _ ih | classDecl _ _ _ _ _ _ ih => exact ih
  | ifThen _ _ hc _ _ ih => exact hc.tolerated.append ih
  | ifElse _ _ hc _ _ _ _ ihthen ihelse => exact (hc.tolerated.append ihthen).append ihelse
  | whileDo _ _ hc _ _ ih => exact hc.tolerated.append ih
  | forDo _ _ hi hc _ hn _ _ ih =>
    exact ((hi.tolerated.append hc.tolerated).append hn.tolerated).append ih
  | varDecl _ hd => exact hd.tolerated
  | routine _ _ hp _ _ _ _ ih => exact hp.tolerated.append ih
  | noDeclarations | noMethods => exact tolerated_nil
  | declarations _ _ ih ihrest | methods _ _ ih ihrest => exact ih.append ihrest

/-! ## The reader and the grammar -/

/-- What a text that is no program of the grammar makes the reader report. -/
theorem faulty_of_not_derivable {tokens : Tokens}
    (h : ¬ ∃ stmts is, Phrase .declarations tokens.tokens stmts is) :
    Faulty (parse tokens).issues := by
  rcases yields_program ⟨tokens.tokens, tokens.ending⟩ with
    hf | ⟨ts, stmts, is, rest, -, hts, hd, hend⟩
  · exact hf
  · rw [hend, List.append_nil] at hts
    subst hts
    exact absurd ⟨stmts, is, hd⟩ h

theorem parse_of_derivation {tokens : Tokens} {stmts : List RawStmt} {is : List Issue}
    (h : Phrase .declarations tokens.tokens stmts is) : parse tokens = ⟨stmts, is⟩ := by
  have hr := reads_program h tokens.ending
  rw [List.append_nil] at hr
  simp only [parse, hr, Option.getD_some]

/-- What is read without any issue is derived. -/
theorem derivation_of_parse {tokens : Tokens} {stmts : List RawStmt}
    (h : parse tokens = ⟨stmts, []⟩) : Phrase .declarations tokens.tokens stmts [] := by
  have hclean : ¬ Faulty (parse tokens).issues := by
    rw [h]
    rintro ⟨i, hi, -⟩
    exact absurd hi List.not_mem_nil
  have hderived : ∃ stmts is, Phrase .declarations tokens.tokens stmts is :=
    Classical.byContradiction fun hn => hclean (faulty_of_not_derivable hn)
  obtain ⟨stmts', is, hd⟩ := hderived
  rw [parse_of_derivation hd] at h
  cases h
  exact hd

/-- **The reader accepts the grammar and nothing else.** From a text of the grammar it builds
exactly the statements of the derivation, and reports exactly the issues of the derivation, none of
which is a syntax error. In any other text it finds a syntax error. -/
theorem parse_exact (tokens : Tokens) :
    (∀ stmts is, Phrase .declarations tokens.tokens stmts is →
      parse tokens = ⟨stmts, is⟩ ∧ Tolerated is) ∧
    ((∃ stmts is, Phrase .declarations tokens.tokens stmts is) ↔ ¬ Faulty (parse tokens).issues) := by
  refine ⟨fun stmts is h => ⟨parse_of_derivation h, h.tolerated⟩, ?_, ?_⟩
  · rintro ⟨stmts, is, h⟩
    rw [parse_of_derivation h]
    exact h.tolerated.not_faulty
  · intro hclean
    exact Classical.byContradiction fun h => hclean (faulty_of_not_derivable h)

end LoxKit.Grammar
