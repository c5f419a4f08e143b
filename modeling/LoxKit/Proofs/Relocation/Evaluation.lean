import LoxKit.Proofs.Machine.Declaration
import LoxKit.Proofs.Relocation.Store

/-!
# Programs that are moved

A program that is moved runs as it did before: it prints the same, ends in the same way, and leaves
the same store with moved functions in it. An error is the same error, at the line to which its
place is moved.

Headlines:
* `Relocatable`: all that evaluation consists of, for trees that are moved.
* **`runProgram_move`**: a program that is moved.
* `runProgram_append`: one program behind another.
-/

namespace LoxKit

open LoxKit.Action Relocation

variable {h : Host} {R : Relocation} {fuel : Nat}

/-- All that evaluation consists of does the same with trees that are moved. -/
structure Relocatable (h : Host) (R : Relocation) (fuel : Nat) : Prop where
  evaluate : ∀ depth chain e, R.Carries (Value.move R.pos) (evaluate h fuel depth chain e)
    (evaluate h fuel depth chain (e.move R.pos))
  evaluateAll : ∀ depth chain es, R.Carries (List.map (Value.move R.pos))
    (evaluateAll h fuel depth chain es) (evaluateAll h fuel depth chain (es.map (Expr.move R.pos)))
  apply : ∀ depth f args, R.Carries (Value.move R.pos) (apply h fuel depth f args)
    (apply h fuel depth (f.move R.pos) (args.map (Value.move R.pos)))
  invoke : ∀ depth c args, R.Carries (Value.move R.pos) (invoke h fuel depth c args)
    (invoke h fuel depth (c.move R.pos) (args.map (Value.move R.pos)))
  execute : ∀ depth chain st, R.Carries (Completion.move R.pos) (execute h fuel depth chain st)
    (execute h fuel depth chain (st.move R.pos))
  executeAll : ∀ depth chain sts, R.Carries (Completion.move R.pos)
    (executeAll h fuel depth chain sts) (executeAll h fuel depth chain (sts.map (Stmt.move R.pos)))
  repeatWhile : ∀ depth chain condition body, R.Carries (Completion.move R.pos)
    (repeatWhile h fuel depth chain condition body)
    (repeatWhile h fuel depth chain (condition.move R.pos) (body.move R.pos))

theorem relocatable_zero : Relocatable h R 0 where
  evaluate _ _ _ _ := by
    rw [LoxKit.evaluate, LoxKit.evaluate]
    rfl
  evaluateAll _ _ _ _ := by
    rw [LoxKit.evaluateAll, LoxKit.evaluateAll]
    rfl
  apply _ _ _ _ := by
    rw [LoxKit.apply, LoxKit.apply]
    rfl
  invoke _ _ _ _ := by
    rw [LoxKit.invoke, LoxKit.invoke]
    rfl
  execute _ _ _ _ := by
    rw [LoxKit.execute, LoxKit.execute]
    rfl
  executeAll _ _ _ _ := by
    rw [LoxKit.executeAll, LoxKit.executeAll]
    rfl
  repeatWhile _ _ _ _ _ := by
    rw [LoxKit.repeatWhile, LoxKit.repeatWhile]
    rfl

/-! ## Expressions -/

section Expressions

variable {depth : Nat} {chain : Chain}

theorem super_carries (target : Reference Link) (method : Name) :
    R.Carries (Value.move R.pos) (LoxKit.evaluate h (fuel + 1) depth chain (.super target method))
      (LoxKit.evaluate h (fuel + 1) depth chain
        (.super (target.move R.pos) (method.move R.pos))) := by
  intro s
  obtain ⟨name, link⟩ := target
  rw [LoxKit.evaluate, LoxKit.evaluate]
  cases link with
  | none => rfl
  | some hops =>
    refine (Carries.ofAccess (Frames.getAt_map s.frames chain hops _)).bind (fun above => ?_) s
    refine (Carries.ofAccess (Frames.getAt_map s.frames chain (hops - 1) _)).bind fun receiver => ?_
    cases above with
    | ofClass k =>
      simp only [Value.move, Name.move_text, ClassValue.findMethod?_move]
      cases k.findMethod? method.text with
      | none => exact Carries.fail _ method.pos
      | some c =>
        cases receiver with
        | object o => exact Carries.boundMethod c o
        | _ => exact Carries.breakWith _
    | _ => exact Carries.breakWith _

theorem Relocatable.evaluate_succ (hr : Relocatable h R fuel) (e : Expr Link) :
    R.Carries (Value.move R.pos) (LoxKit.evaluate h (fuel + 1) depth chain e)
      (LoxKit.evaluate h (fuel + 1) depth chain (e.move R.pos)) := by
  cases e with
  | super target method =>
    rw [Expr.move]
    exact super_carries target method
  | literal value token =>
    intro s
    rw [Expr.move, LoxKit.evaluate, LoxKit.evaluate, outcome, Literal.toValue_move]
  | var target | this target =>
    intro s
    rw [Expr.move, LoxKit.evaluate, LoxKit.evaluate]
    exact Carries.follow chain target s
  | grouping inner =>
    intro s
    rw [Expr.move, LoxKit.evaluate, LoxKit.evaluate]
    exact hr.evaluate depth chain inner s
  | unary op pos arg =>
    intro s
    rw [Expr.move, LoxKit.evaluate, LoxKit.evaluate]
    exact (hr.evaluate depth chain arg).bind
      (fun a => Carries.ofOperator pos (applyUnary_move op a)) s
  | binary op pos lhs rhs =>
    intro s
    rw [Expr.move, LoxKit.evaluate, LoxKit.evaluate]
    exact (hr.evaluate depth chain lhs).bind (fun a => (hr.evaluate depth chain rhs).bind fun b =>
      Carries.ofOperator pos (applyBinary_move op a b)) s
  | logical op pos lhs rhs =>
    intro s
    rw [Expr.move, LoxKit.evaluate, LoxKit.evaluate]
    refine (hr.evaluate depth chain lhs).bind (fun a => ?_) s
    rw [LogicalOp.decides_move]
    exact (Carries.pure a).ite (hr.evaluate depth chain rhs)
  | assign target value =>
    intro s
    rw [Expr.move, LoxKit.evaluate, LoxKit.evaluate]
    exact (hr.evaluate depth chain value).bind (fun v => (Carries.write chain target v).bind fun _ =>
      Carries.pure v) s
  | call callee args paren =>
    intro s
    rw [Expr.move, LoxKit.evaluate, LoxKit.evaluate]
    refine (hr.evaluate depth chain callee).bind (fun f => ?_) s
    refine (hr.evaluateAll depth chain args).bind fun vs => ?_
    rw [Value.arity?_move, List.length_map]
    cases f.arity? with
    | none => exact Carries.fail _ paren
    | some arity =>
      exact (Carries.fail _ paren).ite ((Carries.fail _ paren).ite (hr.apply (depth + 1) f vs))
  | get object field =>
    intro s
    rw [Expr.move, LoxKit.evaluate, LoxKit.evaluate]
    refine (hr.evaluate depth chain object).bind (fun v => ?_) s
    cases v with
    | object o => exact Carries.getProperty o field
    | nil | bool | number | string | closure | native | ofClass =>
      exact Carries.fail _ field.pos
  | set object field value =>
    intro s
    rw [Expr.move, LoxKit.evaluate, LoxKit.evaluate]
    refine (hr.evaluate depth chain object).bind (fun v => ?_) s
    cases v with
    | object o =>
      exact (hr.evaluate depth chain value).bind fun v =>
        (Carries.setField o field.text v).bind fun _ => Carries.pure v
    | nil | bool | number | string | closure | native | ofClass =>
      exact Carries.fail _ field.pos

theorem Relocatable.evaluateAll_succ (hr : Relocatable h R fuel) (es : List (Expr Link)) :
    R.Carries (List.map (Value.move R.pos)) (LoxKit.evaluateAll h (fuel + 1) depth chain es)
      (LoxKit.evaluateAll h (fuel + 1) depth chain (es.map (Expr.move R.pos))) := by
  intro s
  cases es with
  | nil =>
    rw [List.map_nil, LoxKit.evaluateAll, LoxKit.evaluateAll]
    rfl
  | cons e es =>
    rw [List.map_cons, LoxKit.evaluateAll, LoxKit.evaluateAll]
    exact (hr.evaluate depth chain e).bind (fun v => (hr.evaluateAll depth chain es).bind fun vs =>
      Carries.pure (v :: vs)) s

end Expressions

/-! ## Calls -/

section Calls

variable {depth : Nat}

theorem Relocatable.apply_succ (hr : Relocatable h R fuel) (f : Value) (args : List Value) :
    R.Carries (Value.move R.pos) (LoxKit.apply h (fuel + 1) depth f args)
      (LoxKit.apply h (fuel + 1) depth (f.move R.pos) (args.map (Value.move R.pos))) := by
  intro s
  cases f with
  | closure c =>
    rw [Value.move, LoxKit.apply, LoxKit.apply]
    exact hr.invoke depth c args s
  | ofClass k =>
    rw [Value.move, LoxKit.apply, LoxKit.apply]
    refine (Carries.newObject k).bind (fun o => ?_) s
    rw [ClassValue.findMethod?_move]
    cases k.findMethod? initName with
    | none => exact Carries.pure (g := Value.move R.pos) (Value.object o)
    | some c =>
      exact (Carries.bindMethod c o).bind fun initializer =>
        (hr.invoke depth initializer args).bind fun _ =>
          Carries.pure (g := Value.move R.pos) (Value.object o)
  | native n =>
    cases n
    rw [Value.move, LoxKit.apply, LoxKit.apply]
    rfl
  | nil | bool | number | string | object =>
    rw [Value.move, LoxKit.apply, LoxKit.apply]
    · rfl
    all_goals simp

theorem Relocatable.invoke_succ (hr : Relocatable h R fuel) (c : Closure) (args : List Value) :
    R.Carries (Value.move R.pos) (LoxKit.invoke h (fuel + 1) depth c args)
      (LoxKit.invoke h (fuel + 1) depth (c.move R.pos) (args.map (Value.move R.pos))) := by
  intro s
  have hparams := parameterFrame_move (f := R.pos) c.function.params args
  rw [LoxKit.invoke, LoxKit.invoke]
  simp only [Closure.move, Function.move_params, Function.move_body, hparams]
  refine (Carries.newFrame _).bind (fun frame => ?_) s
  refine (hr.executeAll depth (frame :: c.captured) c.function.body).bind fun completion => ?_
  refine Carries.ite (fun s => ?_) (Carries.pure_of completion.value_move)
  exact Carries.ofAccess (Frames.getAt_map s.frames c.captured 0 Keyword.this.word) s

end Calls

/-! ## Statements -/

section Statements

variable {depth : Nat} {chain : Chain}

/-- The second half of a class declaration. -/
theorem declareClass_carries (inner : Chain) (name : Name) (above : Option ClassValue)
    (methods : List (Function Link)) :
    R.Carries (Completion.move R.pos) (declareClass chain inner name above methods)
      (declareClass chain inner (name.move R.pos) (above.map (ClassValue.move R.pos))
        (methods.map (Function.move R.pos))) := by
  refine (Carries.newMethods inner methods .empty).bind fun table =>
    Carries.newId.bind fun number => ?_
  have hclass := ClassValue.move_mk (f := R.pos) number name.text above table
  rw [Name.move_text, id_eq, ← hclass]
  exact (Carries.defineIn chain name.text (.ofClass (.mk number name.text above table))).bind
    fun _ => Carries.pure Completion.carryOn

theorem Relocatable.execute_succ (hr : Relocatable h R fuel) (st : Stmt Link) :
    R.Carries (Completion.move R.pos) (LoxKit.execute h (fuel + 1) depth chain st)
      (LoxKit.execute h (fuel + 1) depth chain (st.move R.pos)) := by
  intro s
  cases st with
  | expression e =>
    rw [Stmt.move, LoxKit.execute, LoxKit.execute]
    exact (hr.evaluate depth chain e).bind (fun _ => Carries.pure Completion.carryOn) s
  | print e =>
    rw [Stmt.move, LoxKit.execute, LoxKit.execute]
    refine (hr.evaluate depth chain e).bind (fun v => ?_) s
    rw [Value.text_move]
    exact (Carries.printLine v.text).bind fun _ => Carries.pure Completion.carryOn
  | var name initializer =>
    cases initializer with
    | none =>
      rw [Stmt.move, Option.map_none, LoxKit.execute, LoxKit.execute]
      exact (Carries.defineIn chain name.text .nil).bind
        (fun _ => Carries.pure Completion.carryOn) s
    | some e =>
      rw [Stmt.move, Option.map_some, LoxKit.execute, LoxKit.execute]
      exact (hr.evaluate depth chain e).bind (fun v => (Carries.defineIn chain name.text v).bind
        fun _ => Carries.pure Completion.carryOn) s
  | block body =>
    rw [Stmt.move, LoxKit.execute, LoxKit.execute]
    exact (Carries.newFrame .empty).bind (fun frame => hr.executeAll depth (frame :: chain) body) s
  | ifThen condition thenPart =>
    rw [Stmt.move, LoxKit.execute, LoxKit.execute]
    refine (hr.evaluate depth chain condition).bind (fun v => ?_) s
    rw [Value.truthy_move]
    exact (hr.execute depth chain thenPart).ite (Carries.pure Completion.carryOn)
  | ifElse condition thenPart elsePart =>
    rw [Stmt.move, LoxKit.execute, LoxKit.execute]
    refine (hr.evaluate depth chain condition).bind (fun v => ?_) s
    rw [Value.truthy_move]
    exact (hr.execute depth chain thenPart).ite (hr.execute depth chain elsePart)
  | whileDo condition body =>
    rw [Stmt.move, LoxKit.execute, LoxKit.execute]
    exact hr.repeatWhile depth chain condition body s
  | function f =>
    rw [Stmt.move, LoxKit.execute, LoxKit.execute, Function.move_name, Name.move_text]
    exact (Carries.newClosure f chain false).bind (fun c =>
      (Carries.defineIn chain f.name.text (.closure c)).bind fun _ =>
        Carries.pure Completion.carryOn) s
  | giveBack keyword value =>
    cases value with
    | none =>
      rw [Stmt.move, Option.map_none, LoxKit.execute, LoxKit.execute]
      rfl
    | some e =>
      rw [Stmt.move, Option.map_some, LoxKit.execute, LoxKit.execute]
      exact (hr.evaluate depth chain e).bind (fun v => Carries.pure (Completion.returned v)) s
  | classDecl name superclass methods =>
    rw [Stmt.move, LoxKit.execute, LoxKit.execute]
    cases superclass with
    | none =>
      exact (Carries.defineIn chain name.text .nil).bind
        (fun _ => declareClass_carries chain name none methods) s
    | some r =>
      refine (Carries.follow chain r).bind (fun v => ?_) s
      cases v with
      | ofClass k =>
        exact (Carries.defineIn chain name.text .nil).bind fun _ => (Carries.newFrame _).bind
          fun frame => declareClass_carries (frame :: chain) name (some k) methods
      | _ => exact Carries.fail _ r.name.pos

theorem Relocatable.executeAll_succ (hr : Relocatable h R fuel) (sts : List (Stmt Link)) :
    R.Carries (Completion.move R.pos) (LoxKit.executeAll h (fuel + 1) depth chain sts)
      (LoxKit.executeAll h (fuel + 1) depth chain (sts.map (Stmt.move R.pos))) := by
  intro s
  cases sts with
  | nil =>
    rw [List.map_nil, LoxKit.executeAll, LoxKit.executeAll]
    rfl
  | cons st sts =>
    rw [List.map_cons, LoxKit.executeAll, LoxKit.executeAll]
    refine (hr.execute depth chain st).bind (fun c => ?_) s
    cases c with
    | carryOn => exact hr.executeAll depth chain sts
    | returned v => exact Carries.pure (Completion.returned v)

theorem Relocatable.repeatWhile_succ (hr : Relocatable h R fuel) (condition : Expr Link)
    (body : Stmt Link) :
    R.Carries (Completion.move R.pos) (LoxKit.repeatWhile h (fuel + 1) depth chain condition body)
      (LoxKit.repeatWhile h (fuel + 1) depth chain (condition.move R.pos) (body.move R.pos)) := by
  intro s
  rw [LoxKit.repeatWhile, LoxKit.repeatWhile]
  refine (hr.evaluate depth chain condition).bind (fun v => ?_) s
  rw [Value.truthy_move]
  refine Carries.ite ((hr.execute depth chain body).bind fun c => ?_)
    (Carries.pure Completion.carryOn)
  cases c with
  | carryOn => exact hr.repeatWhile depth chain condition body
  | returned v => exact Carries.pure (Completion.returned v)

end Statements

/-! ## Programs -/

theorem Relocatable.succ (hr : Relocatable h R fuel) : Relocatable h R (fuel + 1) where
  evaluate _ _ := hr.evaluate_succ
  evaluateAll _ _ := hr.evaluateAll_succ
  apply _ := hr.apply_succ
  invoke _ := hr.invoke_succ
  execute _ _ := hr.execute_succ
  executeAll _ _ := hr.executeAll_succ
  repeatWhile _ _ := hr.repeatWhile_succ

theorem relocatable (h : Host) (R : Relocation) (fuel : Nat) : Relocatable h R fuel := by
  induction fuel with
  | zero => exact relocatable_zero
  | succ fuel ih => exact ih.succ

/-- Nothing in the first store of a session has a place. -/
theorem Relocation.store_initial (R : Relocation) :
    R.store .initial = { Store.initial with output := R.before } := by
  have hframes : Store.initial.frames.map (Value.move R.pos) = Store.initial.frames := by
    rw [Store.initial, ← Frames.push_map, Frames.map_empty]
    rfl
  have hobjects : Store.initial.objects.map (Bindings.map (Value.move R.pos)) =
      Store.initial.objects := Array.map_empty
  have houtput : R.before ++ Store.initial.output = R.before := String.append_empty
  rw [store, hframes, hobjects, houtput]

/-- **A program that is moved.** -/
theorem runProgram_move (h : Host) (R : Relocation) (fuel : Nat) (program : List (Stmt Link))
    (s : Store) :
    runProgram h fuel (program.map (Stmt.move R.pos)) (R.store s) =
      R.outcome id (runProgram h fuel program s) := by
  induction program generalizing s with
  | nil => rfl
  | cons st program ih =>
    rw [List.map_cons, runProgram, runProgram, (relocatable h R fuel).execute 0 globals st s]
    cases LoxKit.execute h fuel 0 globals st s with
    | done c s' =>
      cases c with
      | carryOn => exact ih s'
      | returned v => rfl
    | failed | broken | unfinished => rfl

/-- One program behind another. -/
theorem runProgram_append (h : Host) (fuel : Nat) (program program' : List (Stmt Link))
    (s : Store) :
    runProgram h fuel (program ++ program') s =
      Action.bind (runProgram h fuel program) (fun _ => runProgram h fuel program') s := by
  induction program generalizing s with
  | nil => rfl
  | cons st program ih =>
    rw [List.cons_append]
    unfold Action.bind at ih ⊢
    rw [runProgram, runProgram]
    cases LoxKit.execute h fuel 0 globals st s with
    | done c s' =>
      cases c with
      | carryOn => exact ih s'
      | returned v => rfl
    | failed | broken | unfinished => rfl

end LoxKit
