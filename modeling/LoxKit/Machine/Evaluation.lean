import LoxKit.Machine.Operation

/-!
# Evaluation

How linked expressions and statements run. A statement either carries on or answers with the value
of a return, which every statement around it hands outward until a call takes it. Calls may nest
only so deep.

The functions of this module take a number of steps, `fuel`, which bounds how deep they nest and
how often a loop goes round. Where it does not suffice they are unfinished; more of it never
changes what a finished run does.

Headlines:
* `evaluate`, `execute`: the value of an expression, the completion of a statement.
* `runProgram`: the statements of a program in order.
-/

namespace LoxKit

/-- What a program finds around it: the readings of a clock, and how deep calls may nest. -/
structure Host where
  /-- What the clock shows when it has been read this often. -/
  clock : Nat → Float
  callLimit : Nat

/-- A host whose clock starts at a time and ticks a microsecond with each reading. -/
def Host.ticking (start : Float) : Host where
  clock readings := start + readings.toFloat * 0.000001
  callLimit := 1000

/-- More steps than any run will take. -/
def Host.plenty : Nat := Nat.pow 2 62

/-- How a statement ends that does not fail. -/
inductive Completion where
  /-- The next statement follows. -/
  | carryOn
  /-- A return was reached. -/
  | returned (value : Value)

/-- The value of a call whose body ended so. -/
def Completion.value : Completion → Value
  | carryOn => .nil
  | returned v => v

open LoxKit.Action in
mutual

/-- The value of an expression. -/
def evaluate (h : Host) : (fuel depth : Nat) → Chain → Expr Link → Store → Outcome Value
  | 0, _, _, _, _ => .unfinished
  | _ + 1, _, _, .literal value _, s => .done value.toValue s
  | fuel + 1, depth, chain, .grouping inner, s => evaluate h fuel depth chain inner s
  | fuel + 1, depth, chain, .unary op pos arg, s =>
    (do
      let a ← evaluate h fuel depth chain arg
      ofOperator pos.line (applyUnary op a) : Action Value) s
  | fuel + 1, depth, chain, .binary op pos lhs rhs, s =>
    (do
      let a ← evaluate h fuel depth chain lhs
      let b ← evaluate h fuel depth chain rhs
      ofOperator pos.line (applyBinary op a b) : Action Value) s
  | fuel + 1, depth, chain, .logical op _ lhs rhs, s =>
    (do
      let a ← evaluate h fuel depth chain lhs
      if op.decides a then pure a else evaluate h fuel depth chain rhs : Action Value) s
  | _ + 1, _, chain, .var target, s => follow chain target s
  | fuel + 1, depth, chain, .assign target value, s =>
    (do
      let v ← evaluate h fuel depth chain value
      store chain target v
      pure v : Action Value) s
  | fuel + 1, depth, chain, .call callee args paren, s =>
    (do
      let f ← evaluate h fuel depth chain callee
      let vs ← evaluateAll h fuel depth chain args
      match f.arity? with
      | none => fail .notCallable paren.line
      | some arity =>
        if vs.length ≠ arity then fail (.wrongArity arity vs.length) paren.line
        else if h.callLimit ≤ depth then fail .stackOverflow paren.line
        else apply h fuel (depth + 1) f vs : Action Value) s
  | fuel + 1, depth, chain, .get object field, s =>
    (do
      match ← evaluate h fuel depth chain object with
      | .object o => getProperty o field
      | _ => fail .noProperties field.pos.line : Action Value) s
  | fuel + 1, depth, chain, .set object field value, s =>
    (do
      match ← evaluate h fuel depth chain object with
      | .object o => do
        let v ← evaluate h fuel depth chain value
        setField o field.text v
        pure v
      | _ => fail .noFields field.pos.line : Action Value) s
  | _ + 1, _, chain, .this target, s => follow chain target s
  | _ + 1, _, chain, .super target method, s =>
    (do
      match target.link with
      | none => breakWith .unlinkedSuper
      | some hops =>
        let above ← ofAccess (s.frames.getAt chain hops Keyword.super.word)
        let receiver ← ofAccess (s.frames.getAt chain (hops - 1) Keyword.this.word)
        match above with
        | .ofClass k =>
          match k.findMethod? method.text with
          | none => fail (.undefinedProperty method.text) method.pos.line
          | some c =>
            match receiver with
            | .object o => Value.closure <$> bindMethod c o
            | _ => breakWith .thisNotObject
        | _ => breakWith .superNotClass : Action Value) s

/-- The values of expressions, from left to right. -/
def evaluateAll (h : Host) :
    (fuel depth : Nat) → Chain → List (Expr Link) → Store → Outcome (List Value)
  | 0, _, _, _, _ => .unfinished
  | _ + 1, _, _, [], s => .done [] s
  | fuel + 1, depth, chain, e :: es, s =>
    (do
      let v ← evaluate h fuel depth chain e
      let vs ← evaluateAll h fuel depth chain es
      pure (v :: vs) : Action (List Value)) s

/-- The value of a call. The number of arguments is right. -/
def apply (h : Host) : (fuel depth : Nat) → Value → List Value → Store → Outcome Value
  | 0, _, _, _, _ => .unfinished
  | fuel + 1, depth, .closure c, args, s => invoke h fuel depth c args s
  | _ + 1, _, .native .clock, _, s =>
    .done (.number (h.clock s.readings)) { s with readings := s.readings + 1 }
  | fuel + 1, depth, .ofClass k, args, s =>
    (do
      let o ← newObject k
      match k.findMethod? initName with
      | none => pure (.object o)
      | some c => do
        let initializer ← bindMethod c o
        let _ ← invoke h fuel depth initializer args
        pure (.object o) : Action Value) s
  | _ + 1, _, _, _, s => .done .nil s

/-- The value of the call of a function: that of a return, or nil if none is reached. An initializer
answers with its object whatever it returns. -/
def invoke (h : Host) : (fuel depth : Nat) → Closure → List Value → Store → Outcome Value
  | 0, _, _, _, _ => .unfinished
  | fuel + 1, depth, c, args, s =>
    (do
      let frame ← newFrame (parameterFrame c.function.params args)
      let completion ← executeAll h fuel depth (frame :: c.captured) c.function.body
      if c.isInitializer then
        let s ← read id
        ofAccess (s.frames.getAt c.captured 0 Keyword.this.word)
      else pure completion.value : Action Value) s

/-- The completion of a statement. -/
def execute (h : Host) : (fuel depth : Nat) → Chain → Stmt Link → Store → Outcome Completion
  | 0, _, _, _, _ => .unfinished
  | fuel + 1, depth, chain, .expression e, s =>
    (do
      let _ ← evaluate h fuel depth chain e
      pure .carryOn : Action Completion) s
  | fuel + 1, depth, chain, .print e, s =>
    (do
      let v ← evaluate h fuel depth chain e
      printLine v.text
      pure .carryOn : Action Completion) s
  | _ + 1, _, chain, .var name none, s =>
    (do
      defineIn chain name.text .nil
      pure .carryOn : Action Completion) s
  | fuel + 1, depth, chain, .var name (some e), s =>
    (do
      let v ← evaluate h fuel depth chain e
      defineIn chain name.text v
      pure .carryOn : Action Completion) s
  | fuel + 1, depth, chain, .block body, s =>
    (do
      let frame ← newFrame .empty
      executeAll h fuel depth (frame :: chain) body : Action Completion) s
  | fuel + 1, depth, chain, .ifThen condition thenPart, s =>
    (do
      let v ← evaluate h fuel depth chain condition
      if v.truthy then execute h fuel depth chain thenPart
      else pure .carryOn : Action Completion) s
  | fuel + 1, depth, chain, .ifElse condition thenPart elsePart, s =>
    (do
      let v ← evaluate h fuel depth chain condition
      if v.truthy then execute h fuel depth chain thenPart
      else execute h fuel depth chain elsePart : Action Completion) s
  | fuel + 1, depth, chain, .whileDo condition body, s => repeatWhile h fuel depth chain condition body s
  | _ + 1, _, chain, .function f, s =>
    (do
      let c ← newClosure f chain false
      defineIn chain f.name.text (.closure c)
      pure .carryOn : Action Completion) s
  | _ + 1, _, _, .giveBack _ none, s => .done (.returned .nil) s
  | fuel + 1, depth, chain, .giveBack _ (some e), s =>
    (do
      let v ← evaluate h fuel depth chain e
      pure (.returned v) : Action Completion) s
  | _ + 1, _, chain, .classDecl name superclass methods, s =>
    (do
      let above ← match superclass with
        | none => pure none
        | some r => do
          match ← follow chain r with
          | .ofClass k => pure (some k)
          | _ => fail .superclassNotClass r.name.pos.line
      defineIn chain name.text .nil
      let methodChain ← match above with
        | none => pure chain
        | some k => do
          let frame ← newFrame (Bindings.empty.set Keyword.super.word (.ofClass k))
          pure (frame :: chain)
      let table ← newMethods methodChain methods .empty
      let id ← newId
      defineIn chain name.text (.ofClass (.mk id name.text above table))
      pure .carryOn : Action Completion) s

/-- The completion of statements in order: that of the first that does not carry on. -/
def executeAll (h : Host) :
    (fuel depth : Nat) → Chain → List (Stmt Link) → Store → Outcome Completion
  | 0, _, _, _, _ => .unfinished
  | _ + 1, _, _, [], s => .done .carryOn s
  | fuel + 1, depth, chain, stmt :: stmts, s =>
    (do
      match ← execute h fuel depth chain stmt with
      | .carryOn => executeAll h fuel depth chain stmts
      | .returned v => pure (.returned v) : Action Completion) s

/-- The completion of a loop: each time round the condition is evaluated first. -/
def repeatWhile (h : Host) :
    (fuel depth : Nat) → Chain → Expr Link → Stmt Link → Store → Outcome Completion
  | 0, _, _, _, _, _ => .unfinished
  | fuel + 1, depth, chain, condition, body, s =>
    (do
      let v ← evaluate h fuel depth chain condition
      if v.truthy then
        match ← execute h fuel depth chain body with
        | .carryOn => repeatWhile h fuel depth chain condition body
        | .returned v => pure (.returned v)
      else pure .carryOn : Action Completion) s

end

/-- Runs the statements of a program in order. -/
def runProgram (h : Host) (fuel : Nat) : List (Stmt Link) → Store → Outcome Unit
  | [], s => .done () s
  | stmt :: stmts, s =>
    match execute h fuel 0 Action.globals stmt s with
    | .done .carryOn s => runProgram h fuel stmts s
    | .done (.returned _) _ => .broken .strayReturn
    | .failed error line s => .failed error line s
    | .broken breakage => .broken breakage
    | .unfinished => .unfinished

/-- The store of a session that has not run anything: the globals know the clock. -/
def Store.initial : Store where
  frames := Frames.empty.push (Bindings.empty.set "clock" (.native .clock))
  objects := #[]
  fresh := 0
  readings := 0
  output := ""

end LoxKit
