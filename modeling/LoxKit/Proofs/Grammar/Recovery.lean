import LoxKit.Proofs.Grammar.Payment
import LoxKit.Grammar.Statement

/-!
# Recovery

However garbled the tokens are, reading them comes to their end. A declaration takes at least one
token, whatever becomes of it, and finds no more issues than it takes tokens. It is left out exactly
if it finds a syntax error that no declaration inside of it has found: this is said with notes that
are left wherever a declaration is left out, and are found behind each syntax error and nowhere else.

Headlines:
* `Recovers`: what reading a declaration in front of a token comes to.
* `declaration_eq`, `statement_eq`: reading does not run out of levels of nesting.
* `halts_many`: a list ends where it has to, not because its loop has run out.
* **`parse_recovers`**: what reading any tokens comes to.
-/

namespace LoxKit

namespace Parser

variable {α β : Type}

/-- A reader behind another gives a value only if both do. -/
theorem exists_of_mem_bind {p : Parser α} {f : α → Parser β} {s : Stream} {b : β}
    (h : b ∈ (Parser.bind p f s).value) : ∃ a ∈ (p s).value, b ∈ (f a (p s).rest).value ∧
      (Parser.bind p f s).rest = (f a (p s).rest).rest := by
  unfold Parser.bind at h ⊢
  cases hvalue : (p s).value with
  | none => simp [hvalue] at h
  | some a =>
    simp only [hvalue] at h ⊢
    exact ⟨a, rfl, h, rfl⟩

theorem eachUntil_stop {stop : Stream → Bool} {item : Parser α} {s : Stream} (h : stop s = true)
    (count : Nat) : eachUntil stop item count s = ⟨[], s, some none⟩ := by
  unfold eachUntil
  show Parser.bind look _ s = _
  simp only [Parser.bind, look, h, if_true]
  rfl

theorem eachUntil_go {stop : Stream → Bool} {item : Parser α} {s : Stream} (h : stop s = false)
    (count : Nat) : eachUntil stop item count s = (some <$> item) s := by
  unfold eachUntil
  show Parser.bind look _ s = _
  simp only [Parser.bind, look, h, Bool.false_eq_true, if_false, List.nil_append]
  rfl

/-- If each item takes a token, the loop for a list ends where the list has to stop. -/
theorem halts_many {stop : Stream → Bool} {item : Parser α}
    (hend : ∀ ending, stop ⟨[], ending⟩ = true)
    (hitem : ∀ s, stop s = false → ∀ a ∈ (item s).value,
      (item s).rest.tokens.length < s.tokens.length)
    (s : Stream) : ∀ as ∈ (many (eachUntil stop item) s).value,
      stop (many (eachUntil stop item) s).rest = true := by
  have hcollect : ∀ (rounds : List Token) (count : Nat) (s : Stream),
      s.tokens.length ≤ rounds.length →
        ∀ as ∈ (collect (eachUntil stop item) rounds count s).value,
          stop (collect (eachUntil stop item) rounds count s).rest = true := by
    intro rounds
    induction rounds with
    | nil =>
      intro count s hs as _
      obtain ⟨tokens, ending⟩ := s
      obtain rfl := List.length_eq_zero_iff.mp (Nat.le_zero.mp hs)
      exact hend ending
    | cons _ rounds ih =>
      intro count s hs as has
      rw [collect] at has ⊢
      obtain ⟨o, ho, has, hrest⟩ := exists_of_mem_bind has
      rw [hrest]
      by_cases hstop : stop s = true
      · rw [eachUntil_stop hstop] at ho ⊢
        cases ho
        exact hstop
      · rw [Bool.not_eq_true] at hstop
        rw [eachUntil_go hstop] at ho has ⊢
        obtain ⟨a, ha, hsome, htaken⟩ := exists_of_mem_bind (f := fun a => pure (some a)) ho
        have htaken : ((some <$> item) s).rest = (item s).rest := htaken
        cases hsome
        have hless := hitem s hstop a ha
        rw [htaken] at has ⊢
        obtain ⟨as', has', -, hrest'⟩ := exists_of_mem_bind has
        refine hrest' ▸ ih (count + 1) (item s).rest ?_ as' has'
        rw [List.length_cons] at hs
        omega
  exact hcollect s.tokens 0 s (Nat.le_refl _)

end Parser

namespace Grammar

open LoxKit.Parser

variable {notes : List Issue} {n : Nat}

/-- In front of a token a reader takes one at least and does not give up. -/
def Recovers (notes : List Issue) (n : Nat) (p q : Parser (Option RawStmt)) : Prop :=
  ∀ s, s.tokens.length < n → s.atEnd = false → Answers notes .fair s (p s) (q s)

/-! ## Statements -/

theorem pays_optionalExpression (stop : Symbol) :
    Pays notes .tidy n (optionalExpression stop) (optionalExpression stop) := by
  refine pays_look fun s hs => ?_
  split
  · exact pays_nothing none s hs
  · exact ((pays_expression.map some).within .solid_tidy) s hs

theorem pays_variableDeclaration :
    Pays notes .solid n variableDeclaration variableDeclaration := by
  have hend : ∀ (name : Token) (initializer : Option RawExpr), Pays notes .solid n
      (symbol .semicolon .variableEnd >>= fun _ => pure (Stmt.var (nameOf name) initializer))
      (symbol .semicolon .variableEnd >>= fun _ => pure (Stmt.var (nameOf name) initializer)) :=
    fun name initializer =>
      (pays_symbol .semicolon .variableEnd).bind .solid_tidy fun _ => pays_nothing _
  refine (pays_expect .identifier .variableName).bind .solid_solid fun name => ?_
  refine pays_accept_here .solid_solid (fun _ => ?_) (hend name none)
  exact (pays_expression.map some).bind .solid_solid (hend name)

theorem pays_expressionStatement :
    Pays notes .solid n expressionStatement expressionStatement :=
  pays_expression.bind .solid_solid fun _ =>
    (pays_symbol .semicolon .expressionEnd).bind .solid_tidy fun _ => pays_nothing _

theorem pays_printStatement : Pays notes .solid n printStatement printStatement :=
  pays_expression.bind .solid_solid fun _ =>
    (pays_symbol .semicolon .printEnd).bind .solid_tidy fun _ => pays_nothing _

theorem pays_returnStatement (keyword : Pos) :
    Pays notes .solid n (returnStatement keyword) (returnStatement keyword) :=
  (pays_optionalExpression .semicolon).bind .tidy_solid fun _ =>
    (pays_symbol .semicolon .returnEnd).bind .solid_tidy fun _ => pays_nothing _

theorem pays_parameters : Pays notes .solid n parameters parameters := by
  have hend : ∀ params : List Name, Pays notes .solid n
      (symbol .rightParen .parametersEnd >>= fun _ => pure params)
      (symbol .rightParen .parametersEnd >>= fun _ => pure params) := fun params =>
    (pays_symbol .rightParen .parametersEnd).bind .solid_tidy fun _ => pays_nothing params
  have hname : Pays notes .solid n (nameOf <$> expect .identifier .parameterName)
      (nameOf <$> expect .identifier .parameterName) :=
    (pays_expect .identifier .parameterName).map nameOf
  refine pays_look fun s hs => ?_
  dsimp only
  split
  · exact hend [] s hs
  · refine (pays_commaSeparated ?_ fun count => ?_).bind .solid_solid hend s hs
    · exact hname
    · exact (pays_checkCount "parameters" (count + 1)).bind .weak_solid fun _ => hname

section Statements

variable {statement statement' : Parser RawStmt} {declaration declaration' : Parser (Option RawStmt)}
  (hs : Pays notes .solid n statement statement')
  (hd : Recovers notes n declaration declaration')

include hd in
theorem pays_blockBody :
    Pays notes (.weak 0) n (blockBody declaration) (blockBody declaration') := by
  have hbody : Pays notes (.weak 0) n (manyUntil (.symbol .rightBrace) declaration)
      (manyUntil (.symbol .rightBrace) declaration') := by
    refine pays_eachUntil .weak fun s hs hstop => ?_
    rw [Bool.or_eq_false_iff] at hstop
    exact ((hd s hs hstop.2).within .fair_free).within .free_weak
  exact hbody.bind .weak_solid fun body =>
    (pays_symbol .rightBrace .blockEnd).bind .solid_tidy fun _ => pays_nothing _

include hd in
theorem pays_functionDeclaration (routine : Routine) : Pays notes .solid n
    (functionDeclaration declaration routine) (functionDeclaration declaration' routine) := by
  refine (pays_expect .identifier (.routineName routine)).bind .solid_solid fun name => ?_
  refine (pays_symbol .leftParen (.parametersStart routine)).bind .solid_solid fun _ => ?_
  refine pays_parameters.bind .solid_solid fun params => ?_
  refine (pays_symbol .leftBrace (.routineBodyStart routine)).bind .solid_weak fun _ => ?_
  exact (pays_blockBody hd).bind .weak_weak fun body => pays_pure _ Price.Repeats.weak.nothing

include hd in
theorem pays_classDeclaration :
    Pays notes .solid n (classDeclaration declaration) (classDeclaration declaration') := by
  have hend : ∀ (name : Token) (superclass : Option (Reference Unit)),
      Pays notes .solid n
        (do
          let _ ← symbol .leftBrace .classBodyStart
          let methods ← manyUntil (.symbol .rightBrace) (functionDeclaration declaration .method)
          let _ ← symbol .rightBrace .classBodyEnd
          pure (Stmt.classDecl (nameOf name) superclass methods))
        (do
          let _ ← symbol .leftBrace .classBodyStart
          let methods ← manyUntil (.symbol .rightBrace) (functionDeclaration declaration' .method)
          let _ ← symbol .rightBrace .classBodyEnd
          pure (Stmt.classDecl (nameOf name) superclass methods)) := by
    intro name superclass
    have hmethods : Pays notes .tidy n
        (manyUntil (.symbol .rightBrace) (functionDeclaration declaration .method))
        (manyUntil (.symbol .rightBrace) (functionDeclaration declaration' .method)) :=
      pays_eachUntil .tidy fun s hs _ =>
        ((pays_functionDeclaration hd .method).within .solid_tidy) s hs
    refine (pays_symbol .leftBrace .classBodyStart).bind .solid_solid fun _ => ?_
    refine hmethods.bind .tidy_solid fun methods => ?_
    exact (pays_symbol .rightBrace .classBodyEnd).bind .solid_tidy fun _ => pays_nothing _
  refine (pays_expect .identifier .className).bind .solid_solid fun name => ?_
  refine pays_accept_here .solid_solid (fun _ => ?_) (hend name none)
  exact ((pays_expect .identifier .superclassName).map (some ∘ referenceAt)).bind .solid_solid
    (hend name)

include hs in
theorem pays_forStatement (keyword : Pos) :
    Pays notes .solid n (forStatement statement keyword) (forStatement statement' keyword) := by
  have hend : ∀ initializer : Option RawStmt, Pays notes .solid n
      (do
        let condition ← optionalExpression .semicolon
        let _ ← symbol .semicolon .loopConditionEnd
        let increment ← optionalExpression .rightParen
        let _ ← symbol .rightParen .forClausesEnd
        let body ← statement
        pure (forLoop keyword initializer condition increment body))
      (do
        let condition ← optionalExpression .semicolon
        let _ ← symbol .semicolon .loopConditionEnd
        let increment ← optionalExpression .rightParen
        let _ ← symbol .rightParen .forClausesEnd
        let body ← statement'
        pure (forLoop keyword initializer condition increment body)) := by
    intro initializer
    refine (pays_optionalExpression .semicolon).bind .tidy_solid fun condition => ?_
    refine (pays_symbol .semicolon .loopConditionEnd).bind .solid_solid fun _ => ?_
    refine (pays_optionalExpression .rightParen).bind .tidy_solid fun increment => ?_
    refine (pays_symbol .rightParen .forClausesEnd).bind .solid_solid fun _ => ?_
    exact hs.bind .solid_tidy fun body => pays_nothing _
  refine (pays_symbol .leftParen .forStart).bind .solid_solid fun _ => ?_
  refine pays_accept_here .solid_solid (fun _ => hend none) ?_
  refine pays_accept_here .solid_solid (fun _ => ?_) ?_
  · exact (pays_variableDeclaration.map some).bind .solid_solid hend
  · exact (pays_expressionStatement.map some).bind .solid_solid hend

include hs in
theorem pays_ifStatement :
    Pays notes .solid n (ifStatement statement) (ifStatement statement') := by
  refine (pays_symbol .leftParen .ifStart).bind .solid_solid fun _ => ?_
  refine pays_expression.bind .solid_solid fun condition => ?_
  refine (pays_symbol .rightParen .ifConditionEnd).bind .solid_solid fun _ => ?_
  refine hs.bind .solid_tidy fun thenPart => ?_
  refine pays_accept_here (.within .solid_solid .solid_tidy) (fun _ => ?_) (pays_nothing _)
  exact hs.bind .solid_tidy fun elsePart => pays_nothing _

include hs in
theorem pays_whileStatement :
    Pays notes .solid n (whileStatement statement) (whileStatement statement') := by
  refine (pays_symbol .leftParen .whileStart).bind .solid_solid fun _ => ?_
  refine pays_expression.bind .solid_solid fun condition => ?_
  refine (pays_symbol .rightParen .whileConditionEnd).bind .solid_solid fun _ => ?_
  exact hs.bind .solid_tidy fun body => pays_nothing _

include hs hd in
/-- A statement starts with a token, so what is inside of it has less to read. -/
theorem pays_statementOver : Pays notes .solid (n + 1) (statementOver statement declaration)
    (statementOver statement' declaration') := by
  refine pays_accept .solid_solid (fun keyword => pays_forStatement hs keyword.pos) ?_
  refine pays_accept .solid_solid (fun _ => pays_ifStatement hs) ?_
  refine pays_accept .solid_solid (fun _ => pays_printStatement) ?_
  refine pays_accept .solid_solid (fun keyword => pays_returnStatement keyword.pos) ?_
  refine pays_accept .solid_solid (fun _ => pays_whileStatement hs) ?_
  exact pays_accept .solid_weak (fun _ => (pays_blockBody hd).map Stmt.block) pays_expressionStatement

include hd in
theorem pays_declarationOver (hs : Pays notes .solid (n + 1) statement statement') :
    Pays notes .solid (n + 1) (declarationOver statement declaration)
      (declarationOver statement' declaration') := by
  refine pays_accept .solid_solid (fun _ => pays_classDeclaration hd) ?_
  refine pays_accept .solid_solid (fun _ => ?_) ?_
  · exact (pays_functionDeclaration hd .function).map Stmt.function
  exact pays_accept .solid_solid (fun _ => pays_variableDeclaration) hs

end Statements

/-! ## Leaving declarations out -/

/-- Skipping takes tokens from the front, one at least if there is one. -/
theorem skip_spec (ts : List Token) :
    ∃ skipped, ts = skipped ++ skip ts ∧ (ts ≠ [] → skipped ≠ []) := by
  have hfrom : ∀ (ts : List Token) (last : Token), ∃ skipped, ts = skipped ++ skipFrom last ts := by
    intro ts
    induction ts with
    | nil => exact fun _ => ⟨[], rfl⟩
    | cons t ts ih =>
      intro last
      unfold skipFrom
      split
      · exact ⟨[], rfl⟩
      · obtain ⟨skipped, h⟩ := ih t
        exact ⟨t :: skipped, congrArg (t :: ·) h⟩
  cases ts with
  | nil => exact ⟨[], rfl, fun h => absurd rfl h⟩
  | cons t ts =>
    obtain ⟨skipped, h⟩ := hfrom ts t
    exact ⟨t :: skipped, congrArg (t :: ·) h, fun _ => List.cons_ne_nil t skipped⟩

/-- Reads a declaration as `recovering` does, and leaves notes if it is left out. -/
def recoveringNoting (notes : List Issue) (declaration : Parser RawStmt) :
    Parser (Option RawStmt) := fun s =>
  let r := declaration s
  match r.value with
  | some stmt => ⟨r.issues, r.rest, some (some stmt)⟩
  | none => ⟨r.issues ++ notes, { r.rest with tokens := skip r.rest.tokens }, some none⟩

theorem recoveringNoting_nil (declaration : Parser RawStmt) :
    recoveringNoting [] declaration = recovering declaration := by
  funext s
  unfold recoveringNoting recovering
  generalize declaration s = r
  obtain ⟨issues, rest, value⟩ := r
  cases value with
  | some stmt => rfl
  | none => simp only [List.append_nil]

/-- A declaration that is left out takes another token if it has not taken one. -/
theorem recovers_recovering {p q : Parser RawStmt} (h : Pays notes .solid n p q) :
    Recovers notes n (recovering p) (recoveringNoting notes q) := by
  intro s hs hgo
  have hp := h s hs
  unfold recovering recoveringNoting
  generalize p s = r at hp
  generalize q s = r' at hp
  cases hp with
  | gives taken is htokens hallowed =>
    exact .gives taken is htokens ⟨Nat.lt_of_le_of_lt (Nat.zero_le _) hallowed, Nat.le_of_lt hallowed⟩
  | @givesUp taken rest is e htokens he hallowed =>
    obtain ⟨skipped, hskip, hsome⟩ := skip_spec rest
    have hsplit : s.tokens = (taken ++ skipped) ++ skip rest := by
      rw [List.append_assoc, ← hskip, htokens]
    have htaken : is.length + 1 ≤ taken.length + skipped.length := by
      have hmax : is.length + 1 ≤ max 1 taken.length := hallowed
      cases taken with
      | nil =>
        have hrest : rest ≠ [] := by
          rintro rfl
          rw [Stream.atEnd, htokens] at hgo
          cases hgo
        have hpos := List.length_pos_iff.mpr (hsome hrest)
        simp only [List.length_nil] at hmax ⊢
        omega
      | cons t ts =>
        simp only [List.length_cons] at hmax ⊢
        omega
    have hfair : Price.fair.Allows (taken ++ skipped).length (is ++ [e]).length := by
      rw [List.length_append, List.length_append, List.length_singleton]
      exact ⟨Nat.lt_of_lt_of_le (Nat.succ_pos _) htaken, htaken⟩
    have hanswer : Answers notes .fair s ⟨is ++ [e], ⟨skip rest, s.ending⟩, some (none : Option RawStmt)⟩
        ⟨noted notes (is ++ [e]), ⟨skip rest, s.ending⟩, some none⟩ := .gives _ _ hsplit hfair
    rw [noted_append, noted_syntaxError he] at hanswer
    simpa only [List.append_assoc, List.singleton_append] using hanswer

mutual

/-- Reads a statement as `statementWithin` does, with notes where declarations are left out. -/
def statementNoting (notes : List Issue) : (levels : List Token) → Stream → Reply RawStmt
  | [], s => giveUp s
  | _ :: levels, s =>
    statementOver (statementNoting notes levels) (declarationNoting notes levels) s

/-- Reads a declaration as `declarationWithin` does, with notes where declarations are left out. -/
def declarationNoting (notes : List Issue) : (levels : List Token) → Stream →
    Reply (Option RawStmt)
  | [], s => giveUp s
  | _ :: levels, s =>
    let statement := statementOver (statementNoting notes levels) (declarationNoting notes levels)
    recoveringNoting notes (declarationOver statement (declarationNoting notes levels)) s

end

/-- Declarations up to the end of the stream, without those that are left out. -/
def programOver (declaration : Parser (Option RawStmt)) : Parser (List RawStmt) :=
  (·.filterMap id) <$> many (eachUntil Stream.atEnd declaration)

theorem program_over : program = programOver declaration := rfl

/-- Reads a program as `program` does, with notes where declarations are left out. -/
def programNoting (notes : List Issue) : Parser (List RawStmt) :=
  programOver fun s => declarationNoting notes s.all s

/-- Two readers that have enough levels answer alike. -/
theorem pays_within (notes : List Issue) : ∀ {n : Nat} {levels levels' : List Token}, n ≤ levels.length →
    n ≤ levels'.length →
      Pays notes .solid n (statementWithin levels) (statementNoting notes levels') ∧
        Recovers notes n (declarationWithin levels) (declarationNoting notes levels')
  | 0, _, _, _, _ => ⟨pays_zero, fun _ hs => absurd hs (Nat.not_lt_zero _)⟩
  | _ + 1, [], _, h, _ => absurd h (Nat.not_succ_le_zero _)
  | _ + 1, _ :: _, [], _, h => absurd h (Nat.not_succ_le_zero _)
  | _ + 1, _ :: _, _ :: _, h, h' => by
    obtain ⟨hs, hd⟩ := pays_within notes (Nat.le_of_succ_le_succ h) (Nat.le_of_succ_le_succ h')
    have hstatement := pays_statementOver hs hd
    exact ⟨hstatement, recovers_recovering (pays_declarationOver hd hstatement)⟩

/-! ## Levels of nesting -/

/-- Without notes the readers are those of the grammar. -/
theorem noting_nil (levels : List Token) : statementNoting [] levels = statementWithin levels ∧
    declarationNoting [] levels = declarationWithin levels := by
  induction levels with
  | nil =>
    refine ⟨?_, ?_⟩ <;> funext s
    · rw [statementNoting, statementWithin]
    · rw [declarationNoting, declarationWithin]
  | cons t levels ih =>
    obtain ⟨hs, hd⟩ := ih
    have hstatement : statementNoting [] (t :: levels) = statementWithin (t :: levels) := by
      funext s
      rw [statementNoting, statementWithin, hs, hd]
    refine ⟨hstatement, ?_⟩
    funext s
    rw [declarationNoting, declarationWithin, recoveringNoting_nil, hs, hd]

/-- A statement. -/
def statement : Parser RawStmt := fun s =>
  statementWithin s.all s

theorem recovers_declaration (notes : List Issue) (n : Nat) :
    Recovers notes n declaration fun s => declarationNoting notes s.all s :=
  fun s _ => (pays_within notes (Nat.le_refl _) (Nat.le_refl _)).2 s (Nat.lt_succ_self _)

section Levels

variable {levels : List Token} (h : n ≤ levels.length)

include h

theorem pays_levels : Pays [] .solid n (statementWithin levels) statement := by
  intro s hs
  have hlevels := (pays_within [] (Nat.le_trans hs h) (Nat.le_refl s.all.length)).1 s
    (Nat.lt_succ_self _)
  rwa [(noting_nil s.all).1] at hlevels

theorem recovers_levels : Recovers [] n (declarationWithin levels) declaration := by
  intro s hs hgo
  have hlevels := (pays_within [] (Nat.le_trans hs h) (Nat.le_refl s.all.length)).2 s
    (Nat.lt_succ_self _) hgo
  rwa [(noting_nil s.all).2] at hlevels

end Levels

/-- The reader of statements is the rule of statements over the readers of all there is inside. -/
theorem statement_eq : statement = statementOver statement declaration := by
  funext s
  have hlevels := Nat.le_refl s.tokens.length
  exact (pays_statementOver (pays_levels hlevels) (recovers_levels hlevels) s
    (Nat.lt_succ_self _)).eq

/-- The reader of declarations is the rule of declarations over the same readers. -/
theorem declaration_eq : declaration = recovering (declarationOver statement declaration) := by
  funext s
  have hlevels := Nat.le_refl s.tokens.length
  have hrule := (pays_declarationOver (recovers_levels hlevels)
    (pays_levels (Nat.le_refl s.all.length)) s (Nat.lt_succ_self _)).eq
  show recovering (declarationOver (statementWithin s.all) (declarationWithin s.tokens)) s = _
  unfold recovering
  rw [hrule]

/-! ## What reading comes to -/

/-- In front of a token a declaration takes at least one, finds no more issues than it takes tokens,
and does not give up. -/
theorem declaration_spec {s : Stream} (h : s.atEnd = false) :
    ∃ taken rest is stmt?, s.tokens = taken ++ rest ∧ taken ≠ [] ∧ is.length ≤ taken.length ∧
      declaration s = ⟨is, ⟨rest, s.ending⟩, some stmt?⟩ := by
  have hd := recovers_declaration [] _ s (Nat.lt_succ_self _) h
  obtain ⟨taken, rest, is, stmt?, htokens, hallowed, hr, -⟩ := hd.exists_eq fun _ _ => id
  exact ⟨taken, rest, is, stmt?, htokens, List.length_pos_iff.mp hallowed.1, hallowed.2, hr⟩

theorem declaration_less {s : Stream} (h : s.atEnd = false) :
    (declaration s).rest.tokens.length < s.tokens.length := by
  obtain ⟨taken, rest, _, _, htokens, hsome, -, hr⟩ := declaration_spec h
  have hpos := List.length_pos_iff.mpr hsome
  rw [hr, htokens, List.length_append]
  dsimp only
  omega

/-- Declarations are read up to where they have to stop. Where one of them is left out, and nowhere
else, there is a syntax error. -/
theorem declarations_spec (stop : Stream → Bool) (hend : ∀ ending, stop ⟨[], ending⟩ = true)
    (hgo : ∀ s, stop s = false → s.atEnd = false) (s : Stream) :
    ∃ taken rest is body, s.tokens = taken ++ rest ∧ stop ⟨rest, s.ending⟩ = true ∧
      is.length ≤ taken.length ∧
      many (eachUntil stop declaration) s = ⟨is, ⟨rest, s.ending⟩, some body⟩ ∧
      ∀ notes, many (eachUntil stop fun s => declarationNoting notes s.all s) s =
        ⟨noted notes is, ⟨rest, s.ending⟩, some body⟩ := by
  have hpays : ∀ notes, Pays notes .free (s.tokens.length + 1) (many (eachUntil stop declaration))
      (many (eachUntil stop fun s => declarationNoting notes s.all s)) := fun notes =>
    pays_eachUntil .free fun s' hs' hstop =>
      (recovers_declaration notes _ s' hs' (hgo s' hstop)).within .fair_free
  have hanswers := fun notes =>
    (hpays notes s (Nat.lt_succ_self _)).exists_eq fun _ _ => id
  obtain ⟨taken, rest, is, body, htokens, hallowed, hr, -⟩ := hanswers []
  have hstop := halts_many hend (fun s' hs' _ _ => declaration_less (hgo s' hs')) s body (by rw [hr]; rfl)
  refine ⟨taken, rest, is, body, htokens, by rwa [hr] at hstop, hallowed, hr, fun notes => ?_⟩
  obtain ⟨_, _, _, _, -, -, -, hnoted⟩ := hanswers notes
  rw [hnoted, hr]

/-- **Reading comes to the end of any tokens.** It takes all of them and gives statements, with no
more issues than there are tokens. If a note is left wherever a declaration is left out, there is one
behind each syntax error and nowhere else. Every declaration in front of a token takes one at least
and does not give up, and a list of declarations in braces goes on up to the closing brace or the
end. The readers of declarations, statements and expressions obey the rules of the grammar over
themselves, so that it is these readers that are called wherever anything is nested. -/
theorem parse_recovers (tokens : Tokens) :
    program ⟨tokens.tokens, tokens.ending⟩ =
        ⟨(parse tokens).issues, ⟨[], tokens.ending⟩, some (parse tokens).statements⟩ ∧
      (parse tokens).issues.length ≤ tokens.tokens.length ∧
      (∀ notes, programNoting notes ⟨tokens.tokens, tokens.ending⟩ =
        ⟨noted notes (parse tokens).issues, ⟨[], tokens.ending⟩, some (parse tokens).statements⟩) ∧
      (∀ s, s.atEnd = false → ∃ taken rest is stmt?, s.tokens = taken ++ rest ∧ taken ≠ [] ∧
        is.length ≤ taken.length ∧ declaration s = ⟨is, ⟨rest, s.ending⟩, some stmt?⟩) ∧
      (∀ s, ∃ taken rest is body, s.tokens = taken ++ rest ∧
        (Stream.nextIs ⟨rest, s.ending⟩ (.symbol .rightBrace) || rest.isEmpty) = true ∧
        manyUntil (.symbol .rightBrace) declaration s = ⟨is, ⟨rest, s.ending⟩, some body⟩) ∧
      declaration = recovering (declarationOver statement declaration) ∧
      statement = statementOver statement declaration ∧ expression = assignment expression := by
  obtain ⟨taken, rest, is, body, htokens, hstop, hlen, hr, hnoted⟩ := declarations_spec
    Stream.atEnd (fun _ => rfl) (fun _ h => h) ⟨tokens.tokens, tokens.ending⟩
  obtain rfl := List.isEmpty_iff.mp hstop
  have hprogram : program ⟨tokens.tokens, tokens.ending⟩ =
      ⟨is, ⟨[], tokens.ending⟩, some (body.filterMap id)⟩ := by
    rw [program_over]
    show Parser.bind (many (eachUntil Stream.atEnd declaration)) _ _ = _
    simp [Parser.bind, hr, Parser.pure]
  have hparse : parse tokens = ⟨body.filterMap id, is⟩ := by
    rw [parse, hprogram, Option.getD_some]
  rw [hparse]
  refine ⟨hprogram, ?_, fun notes => ?_, fun s hs => declaration_spec hs, fun s => ?_,
    declaration_eq, statement_eq, expression_eq⟩
  · have htaken : tokens.tokens = taken := htokens.trans (List.append_nil taken)
    rw [htaken]
    exact hlen
  · show Parser.bind (many (eachUntil Stream.atEnd _)) _ _ = _
    simp [Parser.bind, hnoted notes, Parser.pure]
  · obtain ⟨taken, rest, is, body, htokens, hstop, -, hr, -⟩ := declarations_spec
      (fun s => s.nextIs (.symbol .rightBrace) || s.atEnd) (fun _ => rfl)
      (fun _ h => (Bool.or_eq_false_iff.mp h).2) s
    exact ⟨taken, rest, is, body, htokens, hstop, hr⟩

end Grammar

end LoxKit
