import LoxKit.Grammar.Expression
import LoxKit.Token.Sequence

/-!
# Reading statements

The grammar of declarations and statements. A declaration that can not be read is left out: what
follows is skipped up to a semicolon or to a keyword that begins a statement, so that one mistake
costs one declaration.

As for expressions, each rule is a reader over readers of what lies one level deeper.

Headlines:
* `Grammar.parse`: the statements of a text and the issues with them.
* `Grammar.skip_length_le`: skipping takes at least one token if there is one.
* `Grammar.recovering_value`: a declaration never makes the reader around it give up.
-/

namespace LoxKit.Grammar

open LoxKit.Parser

/-- A statement as the reader builds it. -/
abbrev RawStmt := Stmt Unit

/-- The condition of a for loop that has none: `true`, at the place of the loop. -/
def alwaysTrue (pos : Pos) : RawExpr :=
  .literal (.bool true) (Keyword.true.token pos)

/-- The loop that a for statement stands for: a block of the initializer and a while loop, in whose
body the increment follows the statement. -/
def forLoop (keyword : Pos) (initializer : Option RawStmt) (condition increment : Option RawExpr)
    (body : RawStmt) : RawStmt :=
  let body := match increment with
    | none => body
    | some e => .block [body, .expression e]
  let loop := .whileDo (condition.getD (alwaysTrue keyword)) body
  match initializer with
  | none => loop
  | some first => .block [first, loop]

/-- An expression, unless the next token is of a kind. -/
def optionalExpression (stop : Symbol) : Parser (Option RawExpr) := do
  let s ← look
  if s.nextIs (.symbol stop) then pure none else
    let e ← expression
    pure (some e)

/-- A variable declaration, behind its keyword. -/
def variableDeclaration : Parser RawStmt := do
  let name ← expect .identifier .variableName
  let initializer ← match ← accept (.symbol .equal) with
    | none => pure none
    | some _ => some <$> expression
  let _ ← symbol .semicolon .variableEnd
  pure (.var (nameOf name) initializer)

/-- An expression as a statement. -/
def expressionStatement : Parser RawStmt := do
  let e ← expression
  let _ ← symbol .semicolon .expressionEnd
  pure (.expression e)

/-- A print statement, behind its keyword. -/
def printStatement : Parser RawStmt := do
  let e ← expression
  let _ ← symbol .semicolon .printEnd
  pure (.print e)

/-- A return statement, behind its keyword. -/
def returnStatement (keyword : Pos) : Parser RawStmt := do
  let value ← optionalExpression .semicolon
  let _ ← symbol .semicolon .returnEnd
  pure (.giveBack keyword value)

/-- The declarations of a block, behind its opening brace, with the closing one. A declaration that
could not be read is left out. -/
def blockBody (declaration : Parser (Option RawStmt)) : Parser (List RawStmt) := do
  let body ← manyUntil (.symbol .rightBrace) declaration
  let _ ← symbol .rightBrace .blockEnd
  pure (body.filterMap id)

/-- The parameters of a function up to the closing parenthesis. -/
def parameters : Parser (List Name) := do
  let s ← look
  let params ← if s.nextIs (.symbol .rightParen) then pure [] else
    commaSeparated fun count => do
      checkCount "parameters" count
      nameOf <$> expect .identifier .parameterName
  let _ ← symbol .rightParen .parametersEnd
  pure params

/-- A function or a method from its name on. -/
def functionDeclaration (declaration : Parser (Option RawStmt)) (routine : Routine) :
    Parser (Function Unit) := do
  let name ← expect .identifier (.routineName routine)
  let _ ← symbol .leftParen (.parametersStart routine)
  let params ← parameters
  let _ ← symbol .leftBrace (.routineBodyStart routine)
  let body ← blockBody declaration
  pure (.mk (nameOf name) params body)

/-- A class declaration, behind its keyword. -/
def classDeclaration (declaration : Parser (Option RawStmt)) : Parser RawStmt := do
  let name ← expect .identifier .className
  let superclass ← match ← accept (.symbol .less) with
    | none => pure none
    | some _ => (some ∘ referenceAt) <$> expect .identifier .superclassName
  let _ ← symbol .leftBrace .classBodyStart
  let methods ← manyUntil (.symbol .rightBrace) (functionDeclaration declaration .method)
  let _ ← symbol .rightBrace .classBodyEnd
  pure (.classDecl (nameOf name) superclass methods)

/-- A for statement, behind its keyword. -/
def forStatement (statement : Parser RawStmt) (keyword : Pos) : Parser RawStmt := do
  let _ ← symbol .leftParen .forStart
  let initializer ← match ← accept (.symbol .semicolon) with
    | some _ => pure none
    | none =>
      match ← accept (.keyword .var) with
      | some _ => some <$> variableDeclaration
      | none => some <$> expressionStatement
  let condition ← optionalExpression .semicolon
  let _ ← symbol .semicolon .loopConditionEnd
  let increment ← optionalExpression .rightParen
  let _ ← symbol .rightParen .forClausesEnd
  let body ← statement
  pure (forLoop keyword initializer condition increment body)

/-- An if statement, behind its keyword. An else belongs to the nearest if before it. -/
def ifStatement (statement : Parser RawStmt) : Parser RawStmt := do
  let _ ← symbol .leftParen .ifStart
  let condition ← expression
  let _ ← symbol .rightParen .ifConditionEnd
  let thenPart ← statement
  match ← accept (.keyword .else) with
  | none => pure (.ifThen condition thenPart)
  | some _ => pure (.ifElse condition thenPart (← statement))

/-- A while statement, behind its keyword. -/
def whileStatement (statement : Parser RawStmt) : Parser RawStmt := do
  let _ ← symbol .leftParen .whileStart
  let condition ← expression
  let _ ← symbol .rightParen .whileConditionEnd
  let body ← statement
  pure (.whileDo condition body)

/-- A statement, over readers of the statements and the declarations inside it. -/
def statementOver (statement : Parser RawStmt) (declaration : Parser (Option RawStmt)) :
    Parser RawStmt := do
  match ← accept (.keyword .for) with
  | some keyword => forStatement statement keyword.pos
  | none =>
  match ← accept (.keyword .if) with
  | some _ => ifStatement statement
  | none =>
  match ← accept (.keyword .print) with
  | some _ => printStatement
  | none =>
  match ← accept (.keyword .return) with
  | some keyword => returnStatement keyword.pos
  | none =>
  match ← accept (.keyword .while) with
  | some _ => whileStatement statement
  | none =>
  match ← accept (.symbol .leftBrace) with
  | some _ => .block <$> blockBody declaration
  | none => expressionStatement

/-- A declaration or a statement, over readers of the statements and declarations inside it. -/
def declarationOver (statement : Parser RawStmt) (declaration : Parser (Option RawStmt)) :
    Parser RawStmt := do
  match ← accept (.keyword .class) with
  | some _ => classDeclaration declaration
  | none =>
  match ← accept (.keyword .fun) with
  | some _ => .function <$> functionDeclaration declaration .function
  | none =>
  match ← accept (.keyword .var) with
  | some _ => variableDeclaration
  | none => statement

/-! ## Recovery -/

/-- Whether a token begins a statement. -/
def startsStatement (t : Token) : Bool :=
  match t.kind with
  | .keyword k => k.startsStatement
  | _ => false

/-- Skips tokens up to the one behind a semicolon or one that begins a statement. The last token
skipped is known. -/
def skipFrom (last : Token) : List Token → List Token
  | [] => []
  | t :: ts =>
    if last.kind = .symbol .semicolon ∨ startsStatement t = true then t :: ts else skipFrom t ts

/-- Skips at least one token, up to where a declaration may start. -/
def skip : List Token → List Token
  | [] => []
  | t :: ts => skipFrom t ts

/-- Reads a declaration; when its reader gives up, skips to where the next may start. -/
def recovering (declaration : Parser RawStmt) : Parser (Option RawStmt) := fun s =>
  let r := declaration s
  match r.value with
  | some stmt => ⟨r.issues, r.rest, some (some stmt)⟩
  | none => ⟨r.issues, { r.rest with tokens := skip r.rest.tokens }, some none⟩

mutual

/-- A statement with no more levels of nesting than `levels` has tokens. -/
def statementWithin : (levels : List Token) → Stream → Reply RawStmt
  | [], s => giveUp s
  | _ :: levels, s => statementOver (statementWithin levels) (declarationWithin levels) s

/-- A declaration with no more levels of nesting than `levels` has tokens, if it can be read. -/
def declarationWithin : (levels : List Token) → Stream → Reply (Option RawStmt)
  | [], s => giveUp s
  | _ :: levels, s =>
    let statement := statementOver (statementWithin levels) (declarationWithin levels)
    recovering (declarationOver statement (declarationWithin levels)) s

end

/-- A declaration, if it can be read. -/
def declaration : Parser (Option RawStmt) := fun s =>
  declarationWithin s.all s

/-- The declarations up to the end of the stream, without those that could not be read. -/
def program : Parser (List RawStmt) := do
  let body ← many fun _ => do
    let s ← look
    if s.atEnd then pure none else some <$> declaration
  pure (body.filterMap id)

/-- The statements of a text and the issues with them. -/
structure Parsed where
  statements : List RawStmt
  issues : List Issue

/-- Reads tokens as a program. The issues are those of the grammar alone. -/
def parse (tokens : Tokens) : Parsed :=
  let r := program ⟨tokens.tokens, tokens.ending⟩
  ⟨r.value.getD [], r.issues⟩

theorem skipFrom_length_le (last : Token) (ts : List Token) :
    (skipFrom last ts).length ≤ ts.length := by
  induction ts generalizing last with
  | nil => simp [skipFrom]
  | cons t ts ih =>
    unfold skipFrom
    split
    · exact Nat.le_refl _
    · exact Nat.le_succ_of_le (ih t)

/-- Skipping takes at least one token if there is one. -/
theorem skip_length_le (ts : List Token) : (skip ts).length ≤ ts.length - 1 := by
  cases ts with
  | nil => simp [skip]
  | cons t ts => exact skipFrom_length_le t ts

/-- A declaration never makes the reader around it give up. -/
theorem recovering_value (p : Parser RawStmt) (s : Stream) :
    (recovering p s).value.isSome = true := by
  simp only [recovering]
  split <;> rfl

end LoxKit.Grammar
