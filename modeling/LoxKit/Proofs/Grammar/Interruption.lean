import LoxKit.Proofs.Grammar.Recovery
import LoxKit.Proofs.Token.Cursor
import LoxKit.Session

/-!
# Readers that a full report ends

A reader tells in the end which issues it has found. Here is how it goes on if each issue is noted at
once. Then there are two ways in which it may come to no value: it gives up, and the nearest
declaration around goes on behind what it skips, or the report gets full, and nothing goes on. No
reader catches a full report, and so both ways of noting issues come to the same.

Headlines:
* `Noter`: readers that note their issues as they find them.
* `Noter.Copies`: such a reader is made as another reader is.
* `Noter.Copies.eq`: it does what the other does whose issues are noted afterwards.
* **`Report.readText_interrupted`**: a text is read the same in both ways.
-/

namespace LoxKit

/-! ## Readers that note issues -/

/-- How a reader ends that notes its issues in a report. -/
inductive Noting (α : Type) where
  /-- It gives a value. -/
  | gives (a : α) (rest : Stream) (report : Report)
  /-- It gives up, and has noted why. -/
  | givesUp (rest : Stream) (report : Report)
  /-- The report is full. -/
  | full (report : Report)

/-- A reader that notes each issue in a report as soon as it finds it. -/
def Noter (α : Type) : Type :=
  Stream → Report → Noting α

namespace Noter

variable {α β : Type}

/-- Gives a value and reads nothing. -/
protected def pure (a : α) : Noter α := fun s report =>
  .gives a s report

/-- Reads on behind a reader that gave a value. -/
protected def bind (q : Noter α) (g : α → Noter β) : Noter β := fun s report =>
  match q s report with
  | .gives a rest report => g a rest report
  | .givesUp rest report => .givesUp rest report
  | .full report => .full report

/-- The stream as it stands. -/
def look : Noter Stream := fun s report =>
  .gives s s report

/-- Notes an issue and reads on, unless that fills the report. -/
def note (i : Issue) : Noter Unit := fun s report =>
  if (report.note i).full then .full (report.note i) else .gives () s (report.note i)

/-- Gives up without a word. -/
def giveUp : Noter α := fun s report =>
  .givesUp s report

/-- Takes the next token if a test has a value for it. -/
def take? (test : Token → Option α) : Noter (Option α) := fun s report =>
  match s.tokens with
  | [] => .gives none s report
  | t :: _ =>
    match test t with
    | none => .gives none s report
    | some a => .gives (some a) s.drop report

/-- Reads a declaration; when its reader gives up, skips to where the next may start. -/
def recovering (declaration : Noter Grammar.RawStmt) : Noter (Option Grammar.RawStmt) :=
  fun s report =>
    match declaration s report with
    | .gives stmt rest report => .gives (some stmt) rest report
    | .givesUp rest report => .gives none { rest with tokens := Grammar.skip rest.tokens } report
    | .full report => .full report

/-- The second reader is made as the first is, of readers that note their issues at once. -/
inductive Copies : {α : Type} → Parser α → Noter α → Prop
  | pure {α : Type} (a : α) : Copies (Parser.pure a) (Noter.pure a)
  | bind {α β : Type} {p : Parser α} {q : Noter α} {f : α → Parser β} {g : α → Noter β}
      (hp : Copies p q) (hf : ∀ a, Copies (f a) (g a)) : Copies (p.bind f) (q.bind g)
  | look : Copies Parser.look look
  | report (i : Issue) : Copies (Parser.report i) (note i)
  | giveUp {α : Type} : Copies (Parser.giveUp : Parser α) giveUp
  | take? {α : Type} (test : Token → Option α) : Copies (Parser.take? test) (take? test)
  | recovering {p : Parser Grammar.RawStmt} {q : Noter Grammar.RawStmt} (h : Copies p q) :
      Copies (Grammar.recovering p) (recovering q)

end Noter

/-! ## Noting afterwards -/

namespace Parser

open Noter (Copies)

variable {α β : Type}

/-- Reads, and then notes the issues one by one. -/
def noter (p : Parser α) : Noter α := fun s report =>
  match report.noteAll (p s).issues with
  | (report, true) => .full report
  | (report, false) =>
    match (p s).value with
    | some a => .gives a (p s).rest report
    | none => .givesUp (p s).rest report

theorem noter_bind (p : Parser α) (f : α → Parser β) :
    (p.bind f).noter = p.noter.bind fun a => (f a).noter := by
  funext s report
  simp only [noter, Noter.bind, Parser.bind]
  generalize p s = first
  obtain ⟨issues, rest, value⟩ := first
  cases value with
  | none =>
    dsimp only
    generalize report.noteAll issues = noted
    obtain ⟨report', full⟩ := noted
    cases full <;> rfl
  | some a =>
    simp only [Report.noteAll_append]
    generalize report.noteAll issues = noted
    obtain ⟨report', full⟩ := noted
    cases full <;> rfl

theorem noter_report (i : Issue) : (report i).noter = Noter.note i := by
  funext s r
  simp only [noter, report, Noter.note, Report.noteAll]
  cases (r.note i).full <;> rfl

theorem noter_take? (test : Token → Option α) : (take? test).noter = Noter.take? test := by
  funext ⟨tokens, ending⟩ r
  cases tokens with
  | nil => rfl
  | cons t ts =>
    simp only [noter, take?, Noter.take?]
    cases test t <;> rfl

/-- Recovery goes on where a declaration gives up, but not where the report is full. -/
theorem noter_recovering (p : Parser Grammar.RawStmt) :
    (Grammar.recovering p).noter = Noter.recovering p.noter := by
  funext s r
  simp only [noter, Noter.recovering, Grammar.recovering]
  generalize p s = first
  obtain ⟨issues, rest, value⟩ := first
  cases value with
  | none =>
    dsimp only
    generalize r.noteAll issues = noted
    obtain ⟨r', full⟩ := noted
    cases full <;> rfl
  | some stmt =>
    dsimp only
    generalize r.noteAll issues = noted
    obtain ⟨r', full⟩ := noted
    cases full <;> rfl

end Parser

/-- **Noting at once and noting afterwards come to the same.** -/
theorem Noter.Copies.eq {α : Type} {p : Parser α} {q : Noter α} (h : Copies p q) : q = p.noter := by
  induction h with
  | pure | look | giveUp => rfl
  | @bind _ _ p _ f _ _ _ hp hf =>
    obtain rfl := hp
    obtain rfl := funext hf
    exact (p.noter_bind f).symm
  | report i => exact (Parser.noter_report i).symm
  | take? test => exact (Parser.noter_take? test).symm
  | @recovering p _ _ hp =>
    obtain rfl := hp
    exact (Parser.noter_recovering p).symm

/-! ## The grammar -/

namespace Parser

open Noter (Copies)

variable {α β : Type}

/-- There is a reader that is made as this one is, of readers that note their issues at once. -/
def Copied (p : Parser α) : Prop :=
  Copies p p.noter

theorem copied_pure (a : α) : Copied (pure a) :=
  Copies.pure a

theorem Copied.bind {p : Parser α} {f : α → Parser β} (hp : Copied p)
    (hf : ∀ a, Copied (f a)) : Copied (p >>= f) := by
  show Copies (p.bind f) (p.bind f).noter
  rw [noter_bind]
  exact Copies.bind hp hf

theorem Copied.map {p : Parser α} (hp : Copied p) (f : α → β) : Copied (f <$> p) :=
  hp.bind fun a => copied_pure (f a)

theorem copied_look : Copied look :=
  Copies.look

theorem copied_report (i : Issue) : Copied (report i) := by
  unfold Copied
  rw [noter_report]
  exact Copies.report i

theorem copied_giveUp : Copied (giveUp : Parser α) :=
  Copies.giveUp

theorem copied_take? (test : Token → Option α) : Copied (take? test) := by
  unfold Copied
  rw [noter_take?]
  exact Copies.take? test

/-- A reader that is chosen by looking at the stream. -/
theorem copied_here {p : Stream → Parser α} (hp : ∀ s, Copied (p s)) :
    Copied fun s => p s s := by
  have h := copied_look.bind hp
  have heq : (look >>= p) = fun s => p s s := rfl
  rwa [heq] at h

theorem copied_refuse (what : Expectation) : Copied (refuse what : Parser α) :=
  copied_here (p := fun s => do
    report (.atToken s.next (.expected what))
    giveUp) fun _ => (copied_report _).bind fun _ => copied_giveUp

theorem copied_accept (kind : Kind) : Copied (accept kind) :=
  copied_take? _

/-- What follows depends on whether the next token is of a kind. -/
theorem copied_if {kind : Kind} {f : Option Token → Parser β} (hsome : ∀ t, Copied (f (some t)))
    (hnone : Copied (f none)) : Copied (accept kind >>= f) :=
  (copied_accept kind).bind fun
    | some t => hsome t
    | none => hnone

theorem copied_expect (kind : Kind) (what : Expectation) : Copied (expect kind what) := by
  have h : Copied (accept kind >>= fun o => o.elim (refuse what) pure) :=
    copied_if copied_pure (copied_refuse what)
  have heq : (accept kind >>= fun o => o.elim (refuse what) pure) = expect kind what := by
    funext ⟨tokens, ending⟩
    show Parser.bind (accept kind) _ _ = _
    cases tokens with
    | nil => rfl
    | cons t ts =>
      simp only [Parser.bind, accept, take?, expect]
      by_cases ht : t.kind = kind
      · simp only [if_pos ht]
        rfl
      · simp only [if_neg ht]
        rfl
  rwa [heq] at h

theorem copied_symbol (s : Symbol) (what : Expectation) : Copied (symbol s what) :=
  copied_expect _ what

theorem copied_iterate {step : α → Parser (Option α)} (h : ∀ a, Copied (step a)) :
    ∀ (rounds : List Token) (a : α), Copied (iterate step rounds a)
  | [], a => copied_pure a
  | _ :: rounds, a => (h a).bind fun
    | none => copied_pure a
    | some b => copied_iterate h rounds b

theorem copied_chain {step : α → Parser (Option α)} (h : ∀ a, Copied (step a)) (a : α) :
    Copied (chain step a) :=
  copied_here (p := fun s => iterate step s.tokens a) fun s => copied_iterate h s.tokens a

theorem copied_collect {item : Nat → Parser (Option α)} (h : ∀ count, Copied (item count)) :
    ∀ (rounds : List Token) (count : Nat), Copied (collect item rounds count)
  | [], _ => copied_pure []
  | _ :: rounds, count => (h count).bind fun
    | none => copied_pure []
    | some a => (copied_collect h rounds (count + 1)).bind fun as => copied_pure (a :: as)

theorem copied_many {item : Nat → Parser (Option α)} (h : ∀ count, Copied (item count)) :
    Copied (many item) :=
  copied_here (p := fun s => collect item s.tokens 0) fun s => copied_collect h s.tokens 0

theorem copied_eachUntil (stop : Stream → Bool) {item : Parser α} (h : Copied item) :
    Copied (many (eachUntil stop item)) := by
  refine copied_many fun _ => copied_look.bind fun s => ?_
  split
  · exact copied_pure none
  · exact h.map some

theorem copied_commaSeparated {item : Nat → Parser α} (h : ∀ count, Copied (item count)) :
    Copied (commaSeparated item) := by
  refine (h 0).bind fun first => Copied.bind (copied_many fun count => ?_) fun rest =>
    copied_pure (first :: rest)
  exact copied_if (fun _ => (h (count + 1)).bind fun a => copied_pure (some a))
    (copied_pure none)

end Parser

namespace Grammar

open LoxKit.Parser

/-! ### Expressions -/

theorem copied_checkCount (what : String) (count : Nat) : Copied (checkCount what count) := by
  unfold checkCount
  split
  · exact copied_look.bind fun s => copied_report _
  · exact copied_pure ()

theorem copied_leftGrouped {operand : Parser RawExpr} (h : Copied operand)
    (join? : Token → Option (RawExpr → RawExpr → RawExpr)) : Copied (leftGrouped operand join?) := by
  refine h.bind fun first => copied_chain (fun lhs => (copied_take? join?).bind fun o => ?_) first
  cases o with
  | none => exact copied_pure none
  | some join => exact h.bind fun rhs => copied_pure _

section Expressions

variable {inner : Parser RawExpr} (h : Copied inner)

include h

theorem copied_primary : Copied (primary inner) := by
  refine (copied_take? _).bind fun
    | some literal => copied_pure literal
    | none => copied_if (fun keyword => ?_) <| copied_if (fun keyword => copied_pure _) <|
        copied_if (fun name => copied_pure _) <| copied_if (fun _ => ?_) (copied_refuse .expression)
  · exact (copied_symbol .dot .superDot).bind fun _ =>
      (copied_expect .identifier .superclassMethodName).bind fun _ => copied_pure _
  · exact h.bind fun _ => (copied_symbol .rightParen .groupEnd).bind fun _ => copied_pure _

theorem copied_arguments : Copied (arguments inner) := by
  refine copied_look.bind fun s => ?_
  have hend : ∀ args : List RawExpr, Copied
      (symbol .rightParen .argumentsEnd >>= fun paren => pure (args, paren.pos)) := fun _ =>
    (copied_symbol .rightParen .argumentsEnd).bind fun _ => copied_pure _
  split
  · exact hend []
  · exact (copied_commaSeparated fun count => (copied_checkCount _ count).bind fun _ => h).bind hend

theorem copied_postfixed : Copied (postfixed inner) := by
  refine (copied_primary h).bind fun first => copied_chain (fun object => ?_) first
  refine copied_if (fun _ => (copied_arguments h).bind fun _ => copied_pure _) ?_
  exact copied_if (fun _ => (copied_expect .identifier .propertyName).bind fun _ => copied_pure _)
    (copied_pure none)

theorem copied_unary : Copied (unary inner) :=
  (copied_many fun _ => copied_take? _).bind fun _ =>
    (copied_postfixed h).bind fun _ => copied_pure _

theorem copied_disjunction : Copied (disjunction inner) :=
  copied_leftGrouped (copied_leftGrouped (copied_leftGrouped (copied_leftGrouped (copied_leftGrouped
    (copied_leftGrouped (copied_unary h) _) _) _) _) _) _

theorem copied_assignment : Copied (assignment inner) := by
  refine (copied_disjunction h).bind fun target => copied_if (fun equals => ?_) (copied_pure target)
  refine h.bind fun value => ?_
  split
  · exact copied_pure _
  · exact (copied_report _).bind fun _ => copied_pure target

end Expressions

theorem copied_expressionWithin : ∀ levels : List Token, Copied (expressionWithin levels)
  | [] => copied_giveUp
  | _ :: levels => copied_assignment (copied_expressionWithin levels)

theorem copied_expression : Copied expression :=
  copied_here (p := fun s => expressionWithin s.all) fun s => copied_expressionWithin s.all

/-! ### Statements -/

theorem copied_optionalExpression (stop : Symbol) : Copied (optionalExpression stop) := by
  refine copied_look.bind fun s => ?_
  split
  · exact copied_pure none
  · exact copied_expression.bind fun _ => copied_pure _

theorem copied_variableDeclaration : Copied variableDeclaration := by
  refine (copied_expect .identifier .variableName).bind fun name => ?_
  have hend : ∀ initializer : Option RawExpr, Copied
      (symbol .semicolon .variableEnd >>= fun _ => pure (Stmt.var (nameOf name) initializer)) :=
    fun _ => (copied_symbol .semicolon .variableEnd).bind fun _ => copied_pure _
  exact copied_if (fun _ => (copied_expression.map some).bind hend) (hend none)

theorem copied_expressionStatement : Copied expressionStatement :=
  copied_expression.bind fun _ =>
    (copied_symbol .semicolon .expressionEnd).bind fun _ => copied_pure _

theorem copied_printStatement : Copied printStatement :=
  copied_expression.bind fun _ => (copied_symbol .semicolon .printEnd).bind fun _ => copied_pure _

theorem copied_returnStatement (keyword : Pos) : Copied (returnStatement keyword) :=
  (copied_optionalExpression .semicolon).bind fun _ =>
    (copied_symbol .semicolon .returnEnd).bind fun _ => copied_pure _

theorem copied_parameters : Copied parameters := by
  refine copied_look.bind fun s => ?_
  have hend : ∀ params : List Name, Copied
      (symbol .rightParen .parametersEnd >>= fun _ => pure params) := fun _ =>
    (copied_symbol .rightParen .parametersEnd).bind fun _ => copied_pure _
  split
  · exact hend []
  · exact (copied_commaSeparated fun count => (copied_checkCount _ count).bind fun _ =>
      (copied_expect .identifier .parameterName).map nameOf).bind hend

section Statements

variable {statement : Parser RawStmt} {declaration : Parser (Option RawStmt)}
  (hs : Copied statement) (hd : Copied declaration)

include hd in
theorem copied_blockBody : Copied (blockBody declaration) :=
  (copied_eachUntil _ hd).bind fun _ =>
    (copied_symbol .rightBrace .blockEnd).bind fun _ => copied_pure _

include hd in
theorem copied_functionDeclaration (routine : Routine) :
    Copied (functionDeclaration declaration routine) := by
  refine (copied_expect .identifier (.routineName routine)).bind fun name => ?_
  refine (copied_symbol .leftParen (.parametersStart routine)).bind fun _ => ?_
  refine copied_parameters.bind fun params => ?_
  refine (copied_symbol .leftBrace (.routineBodyStart routine)).bind fun _ => ?_
  exact (copied_blockBody hd).bind fun _ => copied_pure _

include hd in
theorem copied_classDeclaration : Copied (classDeclaration declaration) := by
  refine (copied_expect .identifier .className).bind fun name => ?_
  have hend : ∀ superclass : Option (Reference Unit), Copied (do
      let _ ← symbol .leftBrace .classBodyStart
      let methods ← manyUntil (.symbol .rightBrace) (functionDeclaration declaration .method)
      let _ ← symbol .rightBrace .classBodyEnd
      pure (Stmt.classDecl (nameOf name) superclass methods)) := by
    intro superclass
    refine (copied_symbol .leftBrace .classBodyStart).bind fun _ => ?_
    refine (copied_eachUntil _ (copied_functionDeclaration hd .method)).bind fun methods => ?_
    exact (copied_symbol .rightBrace .classBodyEnd).bind fun _ => copied_pure _
  refine copied_if (fun _ => Copied.bind ?_ hend) (hend none)
  exact (copied_expect .identifier .superclassName).map _

include hs in
theorem copied_forStatement (keyword : Pos) : Copied (forStatement statement keyword) := by
  refine (copied_symbol .leftParen .forStart).bind fun _ => ?_
  have hend : ∀ initializer : Option RawStmt, Copied (do
      let condition ← optionalExpression .semicolon
      let _ ← symbol .semicolon .loopConditionEnd
      let increment ← optionalExpression .rightParen
      let _ ← symbol .rightParen .forClausesEnd
      let body ← statement
      pure (forLoop keyword initializer condition increment body)) := by
    intro initializer
    refine (copied_optionalExpression .semicolon).bind fun condition => ?_
    refine (copied_symbol .semicolon .loopConditionEnd).bind fun _ => ?_
    refine (copied_optionalExpression .rightParen).bind fun increment => ?_
    refine (copied_symbol .rightParen .forClausesEnd).bind fun _ => ?_
    exact hs.bind fun body => copied_pure _
  refine copied_if (fun _ => hend none) (copied_if (fun _ => ?_) ?_)
  · exact (copied_variableDeclaration.map some).bind hend
  · exact (copied_expressionStatement.map some).bind hend

include hs in
theorem copied_ifStatement : Copied (ifStatement statement) := by
  refine (copied_symbol .leftParen .ifStart).bind fun _ => ?_
  refine copied_expression.bind fun condition => ?_
  refine (copied_symbol .rightParen .ifConditionEnd).bind fun _ => ?_
  exact hs.bind fun thenPart => copied_if (fun _ => hs.bind fun _ => copied_pure _) (copied_pure _)

include hs in
theorem copied_whileStatement : Copied (whileStatement statement) := by
  refine (copied_symbol .leftParen .whileStart).bind fun _ => ?_
  refine copied_expression.bind fun condition => ?_
  refine (copied_symbol .rightParen .whileConditionEnd).bind fun _ => ?_
  exact hs.bind fun body => copied_pure _

include hs hd in
theorem copied_statementOver : Copied (statementOver statement declaration) :=
  copied_if (fun keyword => copied_forStatement hs keyword.pos) <|
    copied_if (fun _ => copied_ifStatement hs) <|
    copied_if (fun _ => copied_printStatement) <|
    copied_if (fun keyword => copied_returnStatement keyword.pos) <|
    copied_if (fun _ => copied_whileStatement hs) <|
    copied_if (fun _ => (copied_blockBody hd).map Stmt.block) copied_expressionStatement

include hs hd in
theorem copied_declarationOver : Copied (declarationOver statement declaration) :=
  copied_if (fun _ => copied_classDeclaration hd) <|
    copied_if (fun _ => (copied_functionDeclaration hd .function).map Stmt.function) <|
    copied_if (fun _ => copied_variableDeclaration) hs

end Statements

theorem copied_recovering {declaration : Parser RawStmt} (h : Copied declaration) :
    Copied (recovering declaration) := by
  show Noter.Copies _ (recovering declaration).noter
  rw [noter_recovering]
  exact Noter.Copies.recovering h

theorem copied_levels : ∀ levels : List Token,
    Copied (statementWithin levels) ∧ Copied (declarationWithin levels)
  | [] => ⟨copied_giveUp, copied_giveUp⟩
  | _ :: levels => by
    obtain ⟨hs, hd⟩ := copied_levels levels
    have hstatement := copied_statementOver hs hd
    exact ⟨hstatement, copied_recovering (copied_declarationOver hstatement hd)⟩

/-- The reader of programs is one of those that can be made of readers that note issues at once. -/
theorem copied_program : Copied program := by
  have hd : Copied declaration :=
    copied_here (p := fun s => declarationWithin s.all) fun s => (copied_levels s.all).2
  exact (copied_eachUntil Stream.atEnd hd).map (·.filterMap id)

/-- Reading a program takes all the tokens and does not give up. -/
theorem program_ends (tokens : Tokens) : program ⟨tokens.tokens, tokens.ending⟩ =
    ⟨(parse tokens).issues, ⟨[], tokens.ending⟩, some (parse tokens).statements⟩ := by
  obtain ⟨_, rest, is, body, -, hstop, -, hr, -⟩ := declarations_spec
    Stream.atEnd (fun _ => rfl) (fun _ h => h) ⟨tokens.tokens, tokens.ending⟩
  obtain rfl := List.isEmpty_iff.mp hstop
  have hprogram : program ⟨tokens.tokens, tokens.ending⟩ =
      ⟨is, ⟨[], tokens.ending⟩, some (body.filterMap id)⟩ := by
    rw [program_over]
    show Parser.bind (many (eachUntil Stream.atEnd declaration)) _ _ = _
    simp only [Parser.bind, hr, Function.comp_apply, Parser.pure, List.append_nil]
  rw [parse, hprogram]
  rfl

end Grammar

/-! ## Reading a text -/

namespace Report

/-- Reads a text with the scanner and a reader of programs, both of which note their issues as they
find them. There are no statements when the report is full. -/
def readNoting (q : Noter (List Grammar.RawStmt)) (report : Report) (text : String) :
    Report × Option (List Grammar.RawStmt) :=
  match Cursor.scan report text with
  | (report, none) => (report, none)
  | (report, some (tokens, ending)) =>
    let count := (tokens ++ [ending]).length
    match q ⟨tokens, ending⟩ (report.info ("Scanned " ++ toString count ++ " tokens")) with
    | .gives stmts _ report => (report, some stmts)
    | .givesUp _ report | .full report => (report, none)

/-- **A text is read the same whether issues are noted at once or afterwards.** There is a reader of
programs that is made as the reader of the grammar is, but of readers that note their issues at once
and that a full report ends wherever they stand. It never gives up, it takes all the tokens unless
the report gets full, and with it a text has the same statements and leaves the same report. -/
theorem readText_interrupted : ∃ q, Noter.Copies Grammar.program q ∧
    (∀ s report, match q s report with
      | .gives _ rest _ => rest.tokens = []
      | .givesUp _ _ => False
      | .full report' => report'.full = true) ∧
    ∀ (report : Report) (text : String), report.readText text = report.readNoting q text := by
  refine ⟨_, Grammar.copied_program, fun s report => ?_, fun report text => ?_⟩
  · have hprogram := Grammar.program_ends ⟨s.tokens, s.ending, []⟩
    simp only [Parser.noter, hprogram]
    generalize (Grammar.parse ⟨s.tokens, s.ending, []⟩).issues = is
    have hfull : (report.noteAll is).2 = true → (report.noteAll is).1.full = true := full_of_noteAll
    generalize report.noteAll is = noted at hfull ⊢
    obtain ⟨report', full⟩ := noted
    cases full with
    | true => exact hfull rfl
    | false => rfl
  · unfold readNoting
    rw [Cursor.scan_eq]
    generalize hlexical : report.noteAll (Tokens.ofText text).issues = noted
    obtain ⟨report', full⟩ := noted
    cases full with
    | true => simp only [readText, hlexical]
    | false =>
      simp only [Parser.noter, Grammar.program_ends]
      generalize hgrammar : (report'.info _).noteAll (Grammar.parse (Tokens.ofText text)).issues = noted
      obtain ⟨report'', full⟩ := noted
      cases full with
      | true => simp only [readText, hlexical, Tokens.all, hgrammar]
      | false => simp only [readText, hlexical, Tokens.all, hgrammar]

end Report

end LoxKit
