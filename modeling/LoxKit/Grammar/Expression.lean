import LoxKit.Grammar.Parser
import LoxKit.Syntax.Basic

/-!
# Reading expressions

The grammar of expressions, lowest precedence first: assignment, `or`, `and`, equality, comparison,
terms, factors, operators before one operand, calls and fields, and primary expressions. All
operators between two operands group to the left, assignment groups to the right.

Each rule is a reader over a reader `inner` of expressions, which stands for the whole grammar one
level deeper. A nested expression always follows a token, so as many levels as there are tokens, the one
at the end included, are enough.

Headlines:
* `Grammar.expression`: the reader of expressions.
* `Grammar.assignTo?_eq_none_iff`: only variables and fields can be assigned to.
-/

namespace LoxKit.Grammar

open LoxKit.Parser

/-- A tree as the reader builds it. -/
abbrev RawExpr := Expr Unit

/-- The most arguments of a call, and the most parameters of a function. -/
def maxArguments : Nat := 255

/-- The name that an identifier token gives. -/
def nameOf (t : Token) : Name :=
  ⟨t.lexeme, t.pos⟩

/-- A reference at a token, about which nothing is known yet. -/
def referenceAt (t : Token) : Reference Unit :=
  ⟨nameOf t, ()⟩

/-- Reports that a list has grown too long when `count` items stand before the next one. -/
def checkCount (what : String) (count : Nat) : Parser Unit := do
  if maxArguments ≤ count then
    let s ← look
    report (.atToken s.next (.tooMany what))

/-- Operands with operators between them, grouped to the left. -/
def leftGrouped (operand : Parser RawExpr) (join? : Token → Option (RawExpr → RawExpr → RawExpr)) :
    Parser RawExpr := do
  let first ← operand
  chain (fun lhs => do
    match ← take? join? with
    | none => pure none
    | some join => pure (some (join lhs (← operand)))) first

/-- The node that an operator between two operands makes. -/
def joinBinary? (op? : Symbol → Option BinaryOp) (t : Token) :
    Option (RawExpr → RawExpr → RawExpr) :=
  match t.kind with
  | .symbol s => (op? s).map fun op => .binary op t.pos
  | _ => none

/-- The node that an operator makes which may leave out its right operand. -/
def joinLogical? (op : LogicalOp) (t : Token) : Option (RawExpr → RawExpr → RawExpr) :=
  if t.kind = .keyword op.keyword then some (.logical op t.pos) else none

/-- The operators of equality. -/
def equalityOp? : Symbol → Option BinaryOp
  | .bangEqual => some .notEqual
  | .equalEqual => some .equal
  | _ => none

/-- The operators of comparison. -/
def comparisonOp? : Symbol → Option BinaryOp
  | .greater => some .greater
  | .greaterEqual => some .greaterEqual
  | .less => some .less
  | .lessEqual => some .lessEqual
  | _ => none

/-- The operators between terms. -/
def termOp? : Symbol → Option BinaryOp
  | .minus => some .minus
  | .plus => some .plus
  | _ => none

/-- The operators between factors. -/
def factorOp? : Symbol → Option BinaryOp
  | .slash => some .divide
  | .star => some .times
  | _ => none

/-- The operators before one operand. -/
def unaryOp? : Symbol → Option UnaryOp
  | .bang => some .not
  | .minus => some .negate
  | _ => none

/-- The value of a literal token. -/
def literalOf? (t : Token) : Option Literal :=
  match t.kind with
  | .keyword .nil => some .nil
  | .keyword .false => some (.bool false)
  | .keyword .true => some (.bool true)
  | _ => t.literal?

/-- A primary expression: a literal, a name, `this`, a method of the superclass, or an expression
in parentheses. -/
def primary (inner : Parser RawExpr) : Parser RawExpr := do
  match ← take? fun t => (literalOf? t).map fun value => .literal value t with
  | some literal => pure literal
  | none =>
  match ← accept (.keyword .super) with
  | some keyword =>
    let _ ← symbol .dot .superDot
    let method ← expect .identifier .superclassMethodName
    pure (.super (referenceAt keyword) (nameOf method))
  | none =>
  match ← accept (.keyword .this) with
  | some keyword => pure (.this (referenceAt keyword))
  | none =>
  match ← accept .identifier with
  | some name => pure (.var (referenceAt name))
  | none =>
  match ← accept (.symbol .leftParen) with
  | some _ =>
    let e ← inner
    let _ ← symbol .rightParen .groupEnd
    pure (.grouping e)
  | none => refuse .expression

/-- The arguments of a call up to its closing parenthesis, and the place of that. -/
def arguments (inner : Parser RawExpr) : Parser (List RawExpr × Pos) := do
  let s ← look
  let args ← if s.nextIs (.symbol .rightParen) then pure [] else
    commaSeparated fun count => do
      checkCount "arguments" count
      inner
  let paren ← symbol .rightParen .argumentsEnd
  pure (args, paren.pos)

/-- A primary expression with the calls and fields that follow it. -/
def postfixed (inner : Parser RawExpr) : Parser RawExpr := do
  let first ← primary inner
  chain (fun object => do
    match ← accept (.symbol .leftParen) with
    | some _ =>
      let (args, paren) ← arguments inner
      pure (some (.call object args paren))
    | none =>
    match ← accept (.symbol .dot) with
    | some _ =>
      let field ← expect .identifier .propertyName
      pure (some (.get object (nameOf field)))
    | none => pure none) first

/-- An operand with the operators before it, the nearest of which applies first. -/
def unary (inner : Parser RawExpr) : Parser RawExpr := do
  let ops ← many fun _ => take? fun t =>
    match t.kind with
    | .symbol s => (unaryOp? s).map fun op => (op, t.pos)
    | _ => none
  let operand ← postfixed inner
  pure (ops.foldr (fun (op, pos) arg => .unary op pos arg) operand)

/-- Everything that binds closer than assignment. -/
def disjunction (inner : Parser RawExpr) : Parser RawExpr :=
  let factor := leftGrouped (unary inner) (joinBinary? factorOp?)
  let term := leftGrouped factor (joinBinary? termOp?)
  let comparison := leftGrouped term (joinBinary? comparisonOp?)
  let equality := leftGrouped comparison (joinBinary? equalityOp?)
  let conjunction := leftGrouped equality (joinLogical? .and)
  leftGrouped conjunction (joinLogical? .or)

/-- The assignment of a value to an expression, if it can be assigned to. -/
def assignTo? (target value : RawExpr) : Option RawExpr :=
  match target with
  | .var reference => some (.assign reference value)
  | .get object field => some (.set object field value)
  | _ => none

/-- An assignment, or an expression without one. What can not be assigned to stays as it is, and
the value is lost. -/
def assignment (inner : Parser RawExpr) : Parser RawExpr := do
  let target ← disjunction inner
  match ← accept (.symbol .equal) with
  | none => pure target
  | some equals =>
    let value ← inner
    match assignTo? target value with
    | some e => pure e
    | none =>
      report (.atToken equals .invalidTarget)
      pure target

/-- An expression with no more levels of nesting than `levels` has tokens. -/
def expressionWithin : (levels : List Token) → Stream → Reply RawExpr
  | [], s => giveUp s
  | _ :: levels, s => assignment (expressionWithin levels) s

/-- An expression. -/
def expression : Parser RawExpr := fun s =>
  expressionWithin s.all s

/-- Only variables and fields can be assigned to. -/
theorem assignTo?_eq_none_iff {target value : RawExpr} :
    assignTo? target value = none ↔
      (∀ reference, target ≠ .var reference) ∧ ∀ object field, target ≠ .get object field := by
  cases target <;> simp [assignTo?]

end LoxKit.Grammar
