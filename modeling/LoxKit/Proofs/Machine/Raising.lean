import LoxKit.Proofs.Machine.Declaration
import LoxKit.Proofs.Machine.Moment

/-!
# Returns as exceptions

Evaluation once more, with a return that raises an exception instead of completing with a value. No
statement hands anything outward; the exception passes all of them by, and only a call catches it.
Both ways of evaluating come to the same, with any number of steps.

What has no parts that run is left to evaluation as it is.

Headlines:
* `Raising`: actions that may raise a value.
* `Raising.evaluate`, `Raising.execute`: evaluation with exceptions.
* **`raising_agrees`**: it agrees with evaluation.
-/

namespace LoxKit

open LoxKit.Action

/-- An action that may raise a value. -/
abbrev Raising (α : Type) : Type :=
  ExceptT Value Action α

namespace Raising

variable {α β : Type}

/-- An action that raises nothing. -/
def lift (m : Action α) : Raising α :=
  ExceptT.lift m

/-- The value that is raised, or nil if none is. -/
def catching (m : Raising Unit) : Raising Value :=
  tryCatch (do m; pure .nil) pure

/-- Not enough steps. -/
def unfinished : Raising α :=
  lift fun _ => .unfinished

mutual

/-- The value of an expression, if no exception is raised. -/
def evaluate (h : Host) : (fuel depth : Nat) → Chain → Expr Link → Raising Value
  | 0, _, _, _ => unfinished
  | fuel + 1, depth, chain, .literal value token =>
    lift (LoxKit.evaluate h (fuel + 1) depth chain (.literal value token))
  | fuel + 1, depth, chain, .grouping inner => evaluate h fuel depth chain inner
  | fuel + 1, depth, chain, .unary op pos arg => do
    let a ← evaluate h fuel depth chain arg
    lift (ofOperator pos.line (applyUnary op a))
  | fuel + 1, depth, chain, .binary op pos lhs rhs => do
    let a ← evaluate h fuel depth chain lhs
    let b ← evaluate h fuel depth chain rhs
    lift (ofOperator pos.line (applyBinary op a b))
  | fuel + 1, depth, chain, .logical op _ lhs rhs => do
    let a ← evaluate h fuel depth chain lhs
    if op.decides a then pure a else evaluate h fuel depth chain rhs
  | fuel + 1, depth, chain, .var target =>
    lift (LoxKit.evaluate h (fuel + 1) depth chain (.var target))
  | fuel + 1, depth, chain, .assign target value => do
    let v ← evaluate h fuel depth chain value
    lift (store chain target v)
    pure v
  | fuel + 1, depth, chain, .call callee args paren => do
    let f ← evaluate h fuel depth chain callee
    let vs ← evaluateAll h fuel depth chain args
    match f.arity? with
    | none => lift (fail .notCallable paren.line)
    | some arity =>
      if vs.length ≠ arity then lift (fail (.wrongArity arity vs.length) paren.line)
      else if h.callLimit ≤ depth then lift (fail .stackOverflow paren.line)
      else apply h fuel (depth + 1) f vs
  | fuel + 1, depth, chain, .get object field => do
    match ← evaluate h fuel depth chain object with
    | .object o => lift (getProperty o field)
    | _ => lift (fail .noProperties field.pos.line)
  | fuel + 1, depth, chain, .set object field value => do
    match ← evaluate h fuel depth chain object with
    | .object o => do
      let v ← evaluate h fuel depth chain value
      lift (setField o field.text v)
      pure v
    | _ => lift (fail .noFields field.pos.line)
  | fuel + 1, depth, chain, .this target =>
    lift (LoxKit.evaluate h (fuel + 1) depth chain (.this target))
  | fuel + 1, depth, chain, .super target method =>
    lift (LoxKit.evaluate h (fuel + 1) depth chain (.super target method))

/-- The values of expressions, from left to right. -/
def evaluateAll (h : Host) : (fuel depth : Nat) → Chain → List (Expr Link) → Raising (List Value)
  | 0, _, _, _ => unfinished
  | _ + 1, _, _, [] => pure []
  | fuel + 1, depth, chain, e :: es => do
    let v ← evaluate h fuel depth chain e
    let vs ← evaluateAll h fuel depth chain es
    pure (v :: vs)

/-- The value of a call. -/
def apply (h : Host) : (fuel depth : Nat) → Value → List Value → Raising Value
  | 0, _, _, _ => unfinished
  | fuel + 1, depth, .closure c, args => invoke h fuel depth c args
  | fuel + 1, depth, .ofClass k, args => do
    let o ← lift (newObject k)
    match k.findMethod? initName with
    | none => pure (.object o)
    | some c => do
      let initializer ← lift (bindMethod c o)
      let _ ← invoke h fuel depth initializer args
      pure (.object o)
  | fuel + 1, depth, f, args => lift (LoxKit.apply h (fuel + 1) depth f args)

/-- The value of the call of a function, which catches what its body raises. -/
def invoke (h : Host) : (fuel depth : Nat) → Closure → List Value → Raising Value
  | 0, _, _, _ => unfinished
  | fuel + 1, depth, c, args => do
    let frame ← lift (newFrame (parameterFrame c.function.params args))
    let v ← catching (executeAll h fuel depth (frame :: c.captured) c.function.body)
    if c.isInitializer then
      lift (read id >>= fun s => ofAccess (s.frames.getAt c.captured 0 Keyword.this.word))
    else pure v

/-- Executes a statement. -/
def execute (h : Host) : (fuel depth : Nat) → Chain → Stmt Link → Raising Unit
  | 0, _, _, _ => unfinished
  | fuel + 1, depth, chain, .expression e => do
    let _ ← evaluate h fuel depth chain e
    pure ()
  | fuel + 1, depth, chain, .print e => do
    let v ← evaluate h fuel depth chain e
    lift (printLine v.text)
  | _ + 1, _, chain, .var name none => lift (defineIn chain name.text .nil)
  | fuel + 1, depth, chain, .var name (some e) => do
    let v ← evaluate h fuel depth chain e
    lift (defineIn chain name.text v)
  | fuel + 1, depth, chain, .block body => do
    let frame ← lift (newFrame .empty)
    executeAll h fuel depth (frame :: chain) body
  | fuel + 1, depth, chain, .ifThen condition thenPart => do
    let v ← evaluate h fuel depth chain condition
    if v.truthy then execute h fuel depth chain thenPart else pure ()
  | fuel + 1, depth, chain, .ifElse condition thenPart elsePart => do
    let v ← evaluate h fuel depth chain condition
    if v.truthy then execute h fuel depth chain thenPart else execute h fuel depth chain elsePart
  | fuel + 1, depth, chain, .whileDo condition body => repeatWhile h fuel depth chain condition body
  | fuel + 1, depth, chain, .function f =>
    lift (LoxKit.execute h (fuel + 1) depth chain (.function f) >>= fun _ => pure ())
  | _ + 1, _, _, .giveBack _ none => throw .nil
  | fuel + 1, depth, chain, .giveBack _ (some e) => do
    let v ← evaluate h fuel depth chain e
    throw v
  | fuel + 1, depth, chain, .classDecl name superclass methods =>
    lift (LoxKit.execute h (fuel + 1) depth chain (.classDecl name superclass methods) >>=
      fun _ => pure ())

/-- Executes statements in order. -/
def executeAll (h : Host) : (fuel depth : Nat) → Chain → List (Stmt Link) → Raising Unit
  | 0, _, _, _ => unfinished
  | _ + 1, _, _, [] => pure ()
  | fuel + 1, depth, chain, stmt :: stmts => do
    execute h fuel depth chain stmt
    executeAll h fuel depth chain stmts

/-- Executes a statement again and again, as long as a condition holds. -/
def repeatWhile (h : Host) : (fuel depth : Nat) → Chain → Expr Link → Stmt Link → Raising Unit
  | 0, _, _, _, _ => unfinished
  | fuel + 1, depth, chain, condition, body => do
    let v ← evaluate h fuel depth chain condition
    if v.truthy then
      execute h fuel depth chain body
      repeatWhile h fuel depth chain condition body
    else pure ()

end

/-! ## Agreement -/

/-- A completion as what is raised. -/
def ofCompletion : Completion → Except Value Unit
  | .carryOn => .ok ()
  | .returned v => .error v

/-- An action that completes, with a return as an exception. -/
def signal (m : Action Completion) : Raising Unit :=
  ExceptT.mk (m >>= fun c => pure (ofCompletion c))

/-- Evaluation with exceptions agrees with evaluation. An expression raises nothing, a statement
raises what it would return. -/
structure Agrees (h : Host) (fuel : Nat) : Prop where
  evaluate : ∀ depth chain e,
    Raising.evaluate h fuel depth chain e = lift (LoxKit.evaluate h fuel depth chain e)
  evaluateAll : ∀ depth chain es,
    Raising.evaluateAll h fuel depth chain es = lift (LoxKit.evaluateAll h fuel depth chain es)
  apply : ∀ depth f args,
    Raising.apply h fuel depth f args = lift (LoxKit.apply h fuel depth f args)
  invoke : ∀ depth c args,
    Raising.invoke h fuel depth c args = lift (LoxKit.invoke h fuel depth c args)
  execute : ∀ depth chain stmt,
    Raising.execute h fuel depth chain stmt = signal (LoxKit.execute h fuel depth chain stmt)
  executeAll : ∀ depth chain stmts,
    Raising.executeAll h fuel depth chain stmts = signal (LoxKit.executeAll h fuel depth chain stmts)
  repeatWhile : ∀ depth chain condition body,
    Raising.repeatWhile h fuel depth chain condition body =
      signal (LoxKit.repeatWhile h fuel depth chain condition body)

section Rules

theorem bind_apply (p : Raising α) (g : α → Raising β) (s : Store) : (p >>= g) s = match p s with
    | .done (.ok a) s' => g a s'
    | .done (.error v) s' => .done (.error v) s'
    | .failed error line s' => .failed error line s'
    | .broken breakage => .broken breakage
    | .unfinished => .unfinished := by
  show Action.bind p (ExceptT.bindCont g) s = _
  unfold Action.bind
  rcases p s with ⟨_ | _, _⟩ | _ | _ | _ <;> rfl

theorem lift_apply (m : Action α) (s : Store) : lift m s = (m s).map .ok := by
  show Action.bind m _ s = _
  unfold Action.bind
  cases m s <;> rfl

theorem signal_apply (m : Action Completion) (s : Store) : signal m s = (m s).map ofCompletion := by
  show Action.bind m _ s = _
  unfold Action.bind
  cases m s <;> rfl

variable {m : Action α}

/-- Only what the action does on each store matters. -/
theorem eq_lift {n : Action α} {p : Raising α} (hp : p = lift m) (hm : ∀ s, n s = m s) :
    p = lift n :=
  hp.trans (congrArg lift (funext fun s => (hm s).symm))

theorem eq_signal {m n : Action Completion} {p : Raising Unit} (hp : p = signal m)
    (hm : ∀ s, n s = m s) : p = signal n :=
  hp.trans (congrArg signal (funext fun s => (hm s).symm))

theorem bind_lift {f : α → Action β} {p : Raising α} {g : α → Raising β} (hp : p = lift m)
    (hg : ∀ a, g a = lift (f a)) : p >>= g = lift (m >>= f) := by
  funext s
  rw [hp, bind_apply, lift_apply, lift_apply]
  show _ = (Action.bind m f s).map _
  unfold Action.bind
  cases m s with
  | done a s' =>
    show g a s' = _
    rw [hg, lift_apply]
  | failed | broken | unfinished => rfl

theorem bind_signal {f : α → Action Completion} {p : Raising α} {g : α → Raising Unit}
    (hp : p = lift m) (hg : ∀ a, g a = signal (f a)) : p >>= g = signal (m >>= f) := by
  funext s
  rw [hp, bind_apply, lift_apply, signal_apply]
  show _ = (Action.bind m f s).map _
  unfold Action.bind
  cases m s with
  | done a s' =>
    show g a s' = _
    rw [hg, signal_apply]
  | failed | broken | unfinished => rfl

/-- What carries on is followed by the next statement; what does not hands its completion on. -/
theorem signal_bind {k m : Action Completion} {p : Raising Unit} {g : Unit → Raising Unit}
    (hp : p = signal m) (hg : ∀ a, g a = signal k) : p >>= g = signal (m >>= fun c =>
      match c with
      | .carryOn => k
      | .returned v => pure (.returned v)) := by
  funext s
  rw [hp, bind_apply, signal_apply, signal_apply]
  show _ = (Action.bind m _ s).map _
  unfold Action.bind
  cases m s with
  | done c s' =>
    cases c with
    | carryOn =>
      show g () s' = _
      rw [hg, signal_apply]
    | returned v => rfl
  | failed | broken | unfinished => rfl

theorem pure_lift (a : α) : (pure a : Raising α) = lift (pure a) := rfl

theorem unfinished_signal : (unfinished : Raising Unit) = signal fun _ => .unfinished := rfl

theorem ite_lift {c : Prop} [Decidable c] {p q : Raising α} {m n : Action α} (hp : p = lift m)
    (hq : q = lift n) : (if c then p else q) = lift (if c then m else n) := by
  split
  · exact hp
  · exact hq

theorem ite_signal {c : Prop} [Decidable c] {p q : Raising Unit} {m n : Action Completion}
    (hp : p = signal m) (hq : q = signal n) :
    (if c then p else q) = signal (if c then m else n) := by
  split
  · exact hp
  · exact hq

/-- An action that completes with no return. -/
def CarriesOn (m : Action Completion) : Prop :=
  ∀ s v s', m s ≠ .done (.returned v) s'

theorem carriesOn_pure : CarriesOn (pure .carryOn) :=
  fun _ _ _ h => by cases h

theorem carriesOn_bind (m : Action α) {f : α → Action Completion} (hf : ∀ a, CarriesOn (f a)) :
    CarriesOn (m >>= f) := by
  intro s v s' h
  replace h : Action.bind m f s = .done (.returned v) s' := h
  unfold Action.bind at h
  cases hd : m s with
  | done a s₁ =>
    rw [hd] at h
    exact hf a s₁ v s' h
  | failed | broken | unfinished =>
    rw [hd] at h
    cases h

theorem carriesOn_function (h : Host) (fuel depth : Nat) (chain : Chain) (f : Function Link) :
    CarriesOn (LoxKit.execute h (fuel + 1) depth chain (.function f)) := by
  intro s v s'
  rw [LoxKit.execute]
  exact carriesOn_bind _ (fun _ => carriesOn_bind _ fun _ => carriesOn_pure) s v s'

theorem carriesOn_declareClass (chain inner : Chain) (name : Name) (above : Option ClassValue)
    (methods : List (Function Link)) : CarriesOn (declareClass chain inner name above methods) :=
  carriesOn_bind _ fun _ => carriesOn_bind _ fun _ => carriesOn_bind _ fun _ => carriesOn_pure

theorem carriesOn_classDecl (h : Host) (fuel depth : Nat) (chain : Chain) (name : Name)
    (superclass : Option (Reference Link)) (methods : List (Function Link)) :
    CarriesOn (LoxKit.execute h (fuel + 1) depth chain (.classDecl name superclass methods)) := by
  have hmade : ∀ above inner, CarriesOn (declareClass chain inner name above methods) :=
    fun above inner => carriesOn_declareClass chain inner name above methods
  intro s v s'
  rw [LoxKit.execute]
  cases superclass with
  | none =>
    refine carriesOn_bind _ (fun above => carriesOn_bind _ fun _ => ?_) s v s'
    cases above with
    | none => exact carriesOn_bind _ (hmade none)
    | some k => exact carriesOn_bind _ fun _ => carriesOn_bind _ (hmade (some k))
  | some r =>
    refine carriesOn_bind _ (fun value => ?_) s v s'
    cases value with
    | ofClass k =>
      refine carriesOn_bind _ fun above => carriesOn_bind _ fun _ => ?_
      cases above with
      | none => exact carriesOn_bind _ (hmade none)
      | some k => exact carriesOn_bind _ fun _ => carriesOn_bind _ (hmade (some k))
    | nil | bool | number | string | closure | native | object =>
      intro _ _ _ hfail
      cases hfail

theorem lift_signal (m : Action Unit) : lift m = signal (m >>= fun _ => pure .carryOn) := by
  funext s
  rw [lift_apply, signal_apply]
  show _ = (Action.bind m _ s).map _
  unfold Action.bind
  cases m s <;> rfl

theorem lift_ignoring {m : Action Completion} (hm : CarriesOn m) :
    lift (m >>= fun _ => pure ()) = signal m := by
  funext s
  rw [lift_apply, signal_apply]
  show (Action.bind m _ s).map _ = _
  unfold Action.bind
  cases hd : m s with
  | done c s' =>
    cases c with
    | carryOn => rfl
    | returned v => exact absurd hd (hm s v s')
  | failed | broken | unfinished => rfl

/-- A call takes the value that was returned, or nil. -/
theorem catching_signal (m : Action Completion) :
    catching (signal m) = lift (m >>= fun c => pure c.value) := by
  funext s
  have hthen : (do signal m; pure .nil : Raising Value) s = (m s).map fun c =>
      match c with
      | .carryOn => .ok .nil
      | .returned v => .error v := by
    rw [bind_apply, signal_apply]
    cases m s with
    | done c s' => cases c <;> rfl
    | failed | broken | unfinished => rfl
  show Action.bind (do signal m; pure .nil : Raising Value) _ s = _
  unfold Action.bind
  rw [hthen, lift_apply]
  show _ = (Action.bind m _ s).map _
  unfold Action.bind
  cases m s with
  | done c s' => cases c <;> rfl
  | failed | broken | unfinished => rfl

theorem catching_bind {m : Action Completion} {p : Raising Unit} {f : Value → Action β}
    {g : Value → Raising β} (hp : p = signal m) (hg : ∀ v, g v = lift (f v)) :
    catching p >>= g = lift (m >>= fun c => f c.value) := by
  rw [hp, catching_signal]
  exact (bind_lift rfl hg).trans (congrArg lift (Action.bind_assoc m _ f))

end Rules

section Steps

variable {h : Host} {fuel : Nat}

theorem agrees_zero : Agrees h 0 where
  evaluate depth chain e := by
    rw [evaluate]
    exact congrArg lift (funext fun s => by rw [LoxKit.evaluate])
  evaluateAll depth chain es := by
    rw [evaluateAll]
    exact congrArg lift (funext fun s => by rw [LoxKit.evaluateAll])
  apply depth f args := by
    rw [apply]
    exact congrArg lift (funext fun s => by rw [LoxKit.apply])
  invoke depth c args := by
    rw [invoke]
    exact congrArg lift (funext fun s => by rw [LoxKit.invoke])
  execute depth chain stmt := by
    rw [execute, unfinished_signal]
    exact congrArg signal (funext fun s => by rw [LoxKit.execute])
  executeAll depth chain stmts := by
    rw [executeAll, unfinished_signal]
    exact congrArg signal (funext fun s => by rw [LoxKit.executeAll])
  repeatWhile depth chain condition body := by
    rw [repeatWhile, unfinished_signal]
    exact congrArg signal (funext fun s => by rw [LoxKit.repeatWhile])

theorem Agrees.evaluate_succ (ha : Agrees h fuel) (depth : Nat) (chain : Chain) (e : Expr Link) :
    Raising.evaluate h (fuel + 1) depth chain e = lift (LoxKit.evaluate h (fuel + 1) depth chain e) := by
  cases e with
  | literal | var | this | super => rw [Raising.evaluate]
  | grouping inner =>
    rw [Raising.evaluate]
    exact eq_lift (ha.evaluate _ _ _) fun s => by rw [LoxKit.evaluate]
  | unary op pos arg =>
    rw [Raising.evaluate]
    exact eq_lift (bind_lift (ha.evaluate _ _ _) fun a => rfl) fun s => by rw [LoxKit.evaluate]
  | binary op pos lhs rhs =>
    rw [Raising.evaluate]
    exact eq_lift (bind_lift (ha.evaluate _ _ _) fun a => bind_lift (ha.evaluate _ _ _) fun b => rfl)
      fun s => by rw [LoxKit.evaluate]
  | logical op pos lhs rhs =>
    rw [Raising.evaluate]
    refine eq_lift (bind_lift (ha.evaluate _ _ _) fun a => ?_) fun s => by rw [LoxKit.evaluate]
    exact ite_lift (pure_lift a) (ha.evaluate _ _ _)
  | assign target value =>
    rw [Raising.evaluate]
    exact eq_lift (bind_lift (ha.evaluate _ _ _) fun v => bind_lift rfl fun _ => pure_lift v)
      fun s => by rw [LoxKit.evaluate]
  | call callee args paren =>
    rw [Raising.evaluate]
    refine eq_lift (bind_lift (ha.evaluate _ _ _) fun f => bind_lift (ha.evaluateAll _ _ _) fun vs =>
      ?_) fun s => by rw [LoxKit.evaluate]
    cases f.arity? with
    | none => rfl
    | some arity => exact ite_lift rfl (ite_lift rfl (ha.apply _ _ _))
  | get object field =>
    rw [Raising.evaluate]
    refine eq_lift (bind_lift (ha.evaluate _ _ _) fun v => ?_) fun s => by rw [LoxKit.evaluate]
    cases v <;> rfl
  | set object field value =>
    rw [Raising.evaluate]
    refine eq_lift (bind_lift (ha.evaluate _ _ _) fun v => ?_) fun s => by rw [LoxKit.evaluate]
    cases v with
    | object o => exact bind_lift (ha.evaluate _ _ _) fun v => bind_lift rfl fun _ => pure_lift v
    | nil | bool | number | string | closure | native | ofClass => rfl

theorem Agrees.apply_succ (ha : Agrees h fuel) (depth : Nat) (f : Value) (args : List Value) :
    Raising.apply h (fuel + 1) depth f args = lift (LoxKit.apply h (fuel + 1) depth f args) := by
  cases f with
  | closure c =>
    rw [Raising.apply]
    exact eq_lift (ha.invoke _ _ _) fun s => by rw [LoxKit.apply]
  | ofClass k =>
    rw [Raising.apply]
    refine eq_lift (bind_lift rfl fun o => ?_) fun s => by rw [LoxKit.apply]
    cases k.findMethod? initName with
    | none => rfl
    | some c => exact bind_lift rfl fun c => bind_lift (ha.invoke _ _ _) fun _ => pure_lift _
  | nil | bool | number | string | native | object =>
    rw [Raising.apply] <;> simp

theorem Agrees.invoke_succ (ha : Agrees h fuel) (depth : Nat) (c : Closure) (args : List Value) :
    Raising.invoke h (fuel + 1) depth c args = lift (LoxKit.invoke h (fuel + 1) depth c args) := by
  rw [Raising.invoke]
  refine (bind_lift rfl fun frame => catching_bind (ha.executeAll depth _ _) fun v =>
    ite_lift rfl (pure_lift v)).trans (congrArg lift (funext fun s => ?_))
  rw [LoxKit.invoke]

theorem Agrees.execute_succ (ha : Agrees h fuel) (depth : Nat) (chain : Chain) (stmt : Stmt Link) :
    Raising.execute h (fuel + 1) depth chain stmt =
      signal (LoxKit.execute h (fuel + 1) depth chain stmt) := by
  cases stmt with
  | expression e =>
    rw [Raising.execute]
    exact eq_signal (bind_signal (ha.evaluate _ _ _) fun _ => rfl) fun s => by rw [LoxKit.execute]
  | print e =>
    rw [Raising.execute]
    exact eq_signal (bind_signal (ha.evaluate _ _ _) fun v => lift_signal _)
      fun s => by rw [LoxKit.execute]
  | var name initializer =>
    cases initializer with
    | none =>
      rw [Raising.execute]
      exact eq_signal (lift_signal _) fun s => by rw [LoxKit.execute]
    | some e =>
      rw [Raising.execute]
      exact eq_signal (bind_signal (ha.evaluate _ _ _) fun v => lift_signal _)
        fun s => by rw [LoxKit.execute]
  | block body =>
    rw [Raising.execute]
    exact eq_signal (bind_signal rfl fun frame => ha.executeAll _ _ _) fun s => by rw [LoxKit.execute]
  | ifThen condition thenPart =>
    rw [Raising.execute]
    exact eq_signal (bind_signal (ha.evaluate _ _ _) fun v => ite_signal (ha.execute _ _ _) rfl)
      fun s => by rw [LoxKit.execute]
  | ifElse condition thenPart elsePart =>
    rw [Raising.execute]
    exact eq_signal (bind_signal (ha.evaluate _ _ _) fun v =>
      ite_signal (ha.execute _ _ _) (ha.execute _ _ _)) fun s => by rw [LoxKit.execute]
  | whileDo condition body =>
    rw [Raising.execute]
    exact eq_signal (ha.repeatWhile _ _ _ _) fun s => by rw [LoxKit.execute]
  | function f =>
    rw [Raising.execute]
    exact lift_ignoring (carriesOn_function h fuel depth chain f)
  | giveBack keyword value =>
    cases value with
    | none =>
      rw [Raising.execute]
      exact eq_signal (m := pure (.returned .nil)) rfl fun s => by rw [LoxKit.execute]; rfl
    | some e =>
      rw [Raising.execute]
      exact eq_signal (bind_signal (ha.evaluate _ _ _) fun v => rfl) fun s => by rw [LoxKit.execute]
  | classDecl name superclass methods =>
    rw [Raising.execute]
    exact lift_ignoring (carriesOn_classDecl h fuel depth chain name superclass methods)

theorem agrees_succ (ha : Agrees h fuel) : Agrees h (fuel + 1) where
  evaluate := ha.evaluate_succ
  apply := ha.apply_succ
  invoke := ha.invoke_succ
  execute := ha.execute_succ
  evaluateAll depth chain es := by
    cases es with
    | nil =>
      rw [Raising.evaluateAll]
      exact eq_lift (pure_lift []) fun s => by rw [LoxKit.evaluateAll]; rfl
    | cons e es =>
      rw [Raising.evaluateAll]
      exact eq_lift (bind_lift (ha.evaluate _ _ _) fun v => bind_lift (ha.evaluateAll _ _ _) fun vs =>
        pure_lift _) fun s => by rw [LoxKit.evaluateAll]
  executeAll depth chain stmts := by
    cases stmts with
    | nil =>
      rw [Raising.executeAll]
      show signal (pure .carryOn) = _
      refine congrArg signal (funext fun s => ?_)
      rw [LoxKit.executeAll]
      rfl
    | cons stmt stmts =>
      rw [Raising.executeAll]
      refine (signal_bind (ha.execute _ _ _) fun _ => ha.executeAll _ _ _).trans ?_
      refine congrArg signal (funext fun s => ?_)
      unfold LoxKit.executeAll
      rfl
  repeatWhile depth chain condition body := by
    rw [Raising.repeatWhile]
    have hround := signal_bind (ha.execute depth chain body) fun _ =>
      ha.repeatWhile depth chain condition body
    refine (bind_signal (ha.evaluate depth chain condition) fun v =>
      ite_signal (c := v.truthy = true) hround (n := pure .carryOn) rfl).trans ?_
    refine congrArg signal (funext fun s => ?_)
    unfold LoxKit.repeatWhile
    rfl

/-- **A return is an exception that a call catches.** Evaluation with exceptions agrees with
evaluation, whatever the steps that both are allowed. -/
theorem raising_agrees (h : Host) (fuel : Nat) : Agrees h fuel := by
  induction fuel with
  | zero => exact agrees_zero
  | succ fuel ih => exact agrees_succ ih

end Steps

end Raising

end LoxKit
