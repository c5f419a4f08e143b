import LoxKit.Proofs.Alignment.Operations

/-!
# Runs abreast

The same text runs in aligned chains on stores that are twins, with as many steps on both sides: it
comes to twins, with values that are twins, or to the same error. The induction is on the steps, so
it does not matter whether the runs end.

Headlines:
* `Abreast`: what the induction is about.
* **`abreast`**: what runs in aligned chains runs abreast.
-/

namespace LoxKit

open LoxKit.Action

variable {h : Host} {fuel depth : Nat} {P : Pairing} {around : Surroundings}
  {scopes scopes' : Scopes} {names : List (List String)} {chain chain' : Chain} {s s' : Store}

/-- Completions that are twins. -/
inductive CompletionTwin (P : Pairing) : Completion → Completion → Prop
  | carryOn : CompletionTwin P .carryOn .carryOn
  | returned {v v' : Value} (hv : ValueTwin P v v') : CompletionTwin P (.returned v) (.returned v')

theorem CompletionTwin.value {c c' : Completion} (h : CompletionTwin P c c') :
    ValueTwin P c.value c'.value := by
  cases h with
  | carryOn => exact .nil
  | returned hv => exact hv

/-- A number of steps with which everything runs abreast. A statement that declares a name stands
where its scopes are flush. -/
structure Abreast (h : Host) (fuel : Nat) : Prop where
  evaluate : ∀ {P around scopes scopes' names depth chain chain' s s' e},
    Regular ⟨around, scopes, .expr e⟩ names → Aligned P scopes chain scopes' chain' →
    Twins P s s' → InStep P (fun P' => ValueTwin P')
      (evaluate h fuel depth chain (linkExpr around scopes e).tree s)
      (evaluate h fuel depth chain' (linkExpr around scopes' e).tree s')
  evaluateAll : ∀ {P around scopes scopes' names depth chain chain' s s' es},
    Regular ⟨around, scopes, .exprs es⟩ names → Aligned P scopes chain scopes' chain' →
    Twins P s s' → InStep P (fun P' => List.Forall₂ (ValueTwin P'))
      (evaluateAll h fuel depth chain (es.map fun e => (linkExpr around scopes e).tree) s)
      (evaluateAll h fuel depth chain' (es.map fun e => (linkExpr around scopes' e).tree) s')
  apply : ∀ {P depth s s' f f' args args'}, ValueTwin P f f' →
    List.Forall₂ (ValueTwin P) args args' → Twins P s s' → InStep P (fun P' => ValueTwin P')
      (apply h fuel depth f args s) (apply h fuel depth f' args' s')
  invoke : ∀ {P depth s s' c c' args args'}, ClosureTwin P c c' →
    List.Forall₂ (ValueTwin P) args args' → Twins P s s' → InStep P (fun P' => ValueTwin P')
      (invoke h fuel depth c args s) (invoke h fuel depth c' args' s')
  execute : ∀ {P around scopes scopes' names depth chain chain' s s' st},
    Regular ⟨around, scopes, .stmt st⟩ names → Aligned P scopes chain scopes' chain' →
    (st.declares ≠ [] → Flush P scopes chain scopes' chain') →
    Twins P s s' → InStep P (fun P' => CompletionTwin P')
      (execute h fuel depth chain (linkStmt around scopes st).tree s)
      (execute h fuel depth chain' (linkStmt around scopes' st).tree s')
  executeAll : ∀ {P around scopes scopes' names depth chain chain' s s' sts},
    Regular ⟨around, scopes, .stmts sts⟩ names → Flush P scopes chain scopes' chain' →
    Twins P s s' → InStep P (fun P' => CompletionTwin P')
      (executeAll h fuel depth chain (linkStmts around scopes sts).tree s)
      (executeAll h fuel depth chain' (linkStmts around scopes' sts).tree s')
  repeatWhile : ∀ {P around scopes scopes' names depth chain chain' s s' condition body},
    Regular ⟨around, scopes, .loop condition body⟩ names → Aligned P scopes chain scopes' chain' →
    Twins P s s' → InStep P (fun P' => CompletionTwin P')
      (repeatWhile h fuel depth chain (linkExpr around scopes condition).tree
        (linkStmt around scopes body).tree s)
      (repeatWhile h fuel depth chain' (linkExpr around scopes' condition).tree
        (linkStmt around scopes' body).tree s')

theorem abreast_zero : Abreast h 0 where
  evaluate _ _ _ := by
    rw [LoxKit.evaluate, LoxKit.evaluate]
    exact .unfinished
  evaluateAll _ _ _ := by
    rw [LoxKit.evaluateAll, LoxKit.evaluateAll]
    exact .unfinished
  apply _ _ _ := by
    rw [LoxKit.apply, LoxKit.apply]
    exact .unfinished
  invoke _ _ _ := by
    rw [LoxKit.invoke, LoxKit.invoke]
    exact .unfinished
  execute _ _ _ _ := by
    rw [LoxKit.execute, LoxKit.execute]
    exact .unfinished
  executeAll _ _ _ := by
    rw [LoxKit.executeAll, LoxKit.executeAll]
    exact .unfinished
  repeatWhile _ _ _ := by
    rw [LoxKit.repeatWhile, LoxKit.repeatWhile]
    exact .unfinished

theorem forall₂_twin_mono {P' : Pairing} (hP : P ≤ P') {vs vs' : List Value}
    (h : List.Forall₂ (ValueTwin P) vs vs') : List.Forall₂ (ValueTwin P') vs vs' :=
  h.imp fun _ _ hv => hv.mono hP

/-! ## Expressions -/

/-- A method of the superclass, made for the receiver. -/
theorem super_inStep {target : Reference Unit} {method : Name}
    (hr : Regular ⟨around, scopes, .expr (.super target method)⟩ names)
    (ha : Aligned P scopes chain scopes' chain') (hs : Twins P s s') :
    InStep P (fun P' => ValueTwin P')
      (evaluate h (fuel + 1) depth chain (linkExpr around scopes (.super target method)).tree s)
      (evaluate h (fuel + 1) depth chain' (linkExpr around scopes' (.super target method)).tree s') := by
  obtain ⟨d, hthis, hsuper⟩ := hr.super_link rfl
  obtain ⟨d', hsuper', hlthis, hlsuper⟩ := ha.super hthis hsuper
  have hname : target.name.text = Keyword.super.word := by
    cases hr.proper with
    | super _ ht => exact ht
  rw [linkExpr, linkExpr, evaluate, evaluate]
  simp only [hname, hsuper, hsuper', Nat.add_sub_cancel]
  refine (getAt_inStep hlsuper hs _).bind fun P₁ above above' t t' hP₁ ht habove => ?_
  -- the receiver is looked up in the stores from before, whatever the first access gave
  rcases getAt_twins hlthis hs Keyword.this.word with ⟨w, w', hw, hw', hwa⟩ | ⟨fault, hf, hf'⟩
  · simp only [hw, hw']
    refine InStep.bind (Q := fun P' => ValueTwin P') (.of_done ht (hwa.mono hP₁))
      fun P₂ receiver receiver' u u' hP₂ hu hreceiver => ?_
    have habove₂ := habove.mono hP₂
    cases habove₂ with
    | @ofClass k k' hclass =>
      have hmethod := hclass.findMethod? method.text
      cases hc : k.findMethod? method.text with
      | none =>
        rw [hc] at hmethod
        simp only [hc, optionRel_none hmethod]
        exact .of_failed hu _ _
      | some c =>
        rw [hc] at hmethod
        obtain ⟨c', hc', hca⟩ := optionRel_some hmethod
        simp only [hc, hc']
        have hreceiver' := hreceiver
        cases hreceiver with
        | object id _ =>
          exact (bindMethod_inStep hu hca hreceiver').bind
            fun _ _ _ _ _ _ ht hq => .of_done ht (.closure hq)
        | _ => exact .broken _
    | _ => exact .broken _
  · simp only [hf, hf']
    exact .broken _

theorem Abreast.evaluate_succ (hp : Abreast h fuel) {e : Expr Unit}
    (hr : Regular ⟨around, scopes, .expr e⟩ names) (ha : Aligned P scopes chain scopes' chain')
    (hs : Twins P s s') :
    InStep P (fun P' => ValueTwin P')
      (LoxKit.evaluate h (fuel + 1) depth chain (linkExpr around scopes e).tree s)
      (LoxKit.evaluate h (fuel + 1) depth chain' (linkExpr around scopes' e).tree s') := by
  cases e with
  | literal value token =>
    rw [linkExpr, linkExpr, LoxKit.evaluate, LoxKit.evaluate]
    refine .of_done hs ?_
    cases value with
    | nil => exact .nil
    | bool b => exact .bool b
    | number x => exact .number x
    | string s => exact .string s
  | grouping inner =>
    simp only [linkExpr, Linked.map_tree]
    rw [LoxKit.evaluate, LoxKit.evaluate]
    exact hp.evaluate (hr.part (i := 0) rfl) ha hs
  | unary op pos arg =>
    simp only [linkExpr, Linked.map_tree]
    rw [LoxKit.evaluate, LoxKit.evaluate]
    exact (hp.evaluate (hr.part (i := 0) rfl) ha hs).bind fun P₁ v v' t t' _ ht hv =>
      applyUnary_inStep ht pos.line op hv
  | binary op pos lhs rhs =>
    rw [linkExpr, linkExpr, LoxKit.evaluate, LoxKit.evaluate]
    refine (hp.evaluate (hr.part (i := 0) rfl) ha hs).bind fun P₁ v v' t t' hP₁ ht hv => ?_
    refine (hp.evaluate (hr.part (i := 1) rfl) (ha.mono hP₁) ht).bind
      fun P₂ w w' u u' hP₂ hu hw => ?_
    exact applyBinary_inStep hu pos.line op (hv.mono hP₂) hw
  | logical op pos lhs rhs =>
    rw [linkExpr, linkExpr, LoxKit.evaluate, LoxKit.evaluate]
    refine (hp.evaluate (hr.part (i := 0) rfl) ha hs).bind fun P₁ v v' t t' hP₁ ht hv => ?_
    refine InStep.ite (Iff.of_eq (by rw [hv.decides])) (.of_done ht hv) ?_
    exact hp.evaluate (hr.part (i := 1) rfl) (ha.mono hP₁) ht
  | var target =>
    simp only [linkExpr, linkVar, Linked.map_tree]
    rw [LoxKit.evaluate, LoxKit.evaluate]
    exact ha.follow hs (ha.leads _) target.name
  | assign target value =>
    simp only [linkExpr, Linked.map_tree]
    rw [LoxKit.evaluate, LoxKit.evaluate]
    refine (hp.evaluate (hr.part (i := 0) rfl) ha hs).bind fun P₁ v v' t t' hP₁ ht hv => ?_
    have ha₁ := ha.mono hP₁
    refine (ha₁.store ht (ha₁.leads _) target.name hv).bind fun P₂ _ _ u u' hP₂ hu _ => ?_
    exact .of_done hu (hv.mono hP₂)
  | call callee args paren =>
    simp only [linkExpr, List.map_map, Function.comp_def]
    rw [LoxKit.evaluate, LoxKit.evaluate]
    refine (hp.evaluate (hr.part (i := 0) rfl) ha hs).bind fun P₁ f f' t t' hP₁ ht hf => ?_
    refine (hp.evaluateAll (hr.part (i := 1) rfl) (ha.mono hP₁) ht).bind
      fun P₂ vs vs' u u' hP₂ hu hvs => ?_
    rw [hf.arity, hvs.length_eq]
    cases f.arity? with
    | none => exact .of_failed hu _ _
    | some arity =>
      exact .ite Iff.rfl (.of_failed hu _ _) (.ite Iff.rfl (.of_failed hu _ _)
        (hp.apply (hf.mono hP₂) hvs hu))
  | get object field =>
    simp only [linkExpr, Linked.map_tree]
    rw [LoxKit.evaluate, LoxKit.evaluate]
    refine (hp.evaluate (hr.part (i := 0) rfl) ha hs).bind fun P₁ v v' t t' hP₁ ht hv => ?_
    have hv' := hv
    cases hv with
    | object id _ => exact getProperty_inStep ht hv' field
    | _ => exact .of_failed ht _ _
  | set object field value =>
    rw [linkExpr, linkExpr, LoxKit.evaluate, LoxKit.evaluate]
    refine (hp.evaluate (hr.part (i := 0) rfl) ha hs).bind fun P₁ o o' t t' hP₁ ht ho => ?_
    have ho' := ho
    cases ho with
    | object id _ =>
      refine (hp.evaluate (hr.part (i := 1) rfl) (ha.mono hP₁) ht).bind
        fun P₂ v v' u u' hP₂ hu hv => ?_
      refine (setField_inStep hu (ho'.mono hP₂) field.text hv).bind fun P₃ _ _ w w' hP₃ hw _ => ?_
      exact .of_done hw (hv.mono hP₃)
    | _ => exact .of_failed ht _ _
  | this target =>
    rw [linkExpr, linkExpr, if_neg hr.enclosing_this, if_neg hr.enclosing_this, LoxKit.evaluate,
      LoxKit.evaluate]
    exact ha.follow hs (ha.leads _) target.name
  | super target method => exact super_inStep hr ha hs

theorem Abreast.evaluateAll_succ (hp : Abreast h fuel) {es : List (Expr Unit)}
    (hr : Regular ⟨around, scopes, .exprs es⟩ names) (ha : Aligned P scopes chain scopes' chain')
    (hs : Twins P s s') :
    InStep P (fun P' => List.Forall₂ (ValueTwin P'))
      (LoxKit.evaluateAll h (fuel + 1) depth chain
        (es.map fun e => (linkExpr around scopes e).tree) s)
      (LoxKit.evaluateAll h (fuel + 1) depth chain'
        (es.map fun e => (linkExpr around scopes' e).tree) s') := by
  cases es with
  | nil =>
    rw [List.map_nil, List.map_nil, LoxKit.evaluateAll, LoxKit.evaluateAll]
    exact .of_done hs .nil
  | cons e es =>
    rw [List.map_cons, List.map_cons, LoxKit.evaluateAll, LoxKit.evaluateAll]
    refine (hp.evaluate (hr.part (i := 0) rfl) ha hs).bind fun P₁ v v' t t' hP₁ ht hv => ?_
    refine (hp.evaluateAll (hr.part (i := 1) rfl) (ha.mono hP₁) ht).bind
      fun P₂ vs vs' u u' hP₂ hu hvs => ?_
    exact .of_done hu (.cons (hv.mono hP₂) hvs)

/-! ## Calls -/

theorem Abreast.apply_succ (hp : Abreast h fuel) {f f' : Value} {args args' : List Value}
    (hf : ValueTwin P f f') (hargs : List.Forall₂ (ValueTwin P) args args') (hs : Twins P s s') :
    InStep P (fun P' => ValueTwin P') (LoxKit.apply h (fuel + 1) depth f args s)
      (LoxKit.apply h (fuel + 1) depth f' args' s') := by
  cases hf with
  | closure hc =>
    rw [LoxKit.apply, LoxKit.apply]
    exact hp.invoke hc hargs hs
  | @ofClass k k' hclass =>
    rw [LoxKit.apply, LoxKit.apply]
    refine (newObject_inStep hs hclass).bind fun P₁ o o' t t' hP₁ ht ho => ?_
    have hinit := hclass.findMethod? initName
    cases hc : k.findMethod? initName with
    | none =>
      rw [hc] at hinit
      rw [optionRel_none hinit]
      exact .of_done ht ho
    | some c =>
      rw [hc] at hinit
      obtain ⟨c', hc', hca⟩ := optionRel_some hinit
      rw [hc']
      refine (bindMethod_inStep ht (hca.mono hP₁) ho).bind fun P₂ d d' u u' hP₂ hu hd => ?_
      have hargs₂ := forall₂_twin_mono (hP₁.trans hP₂) hargs
      refine (hp.invoke hd hargs₂ hu).bind fun P₃ _ _ w w' hP₃ hw _ => ?_
      exact .of_done hw ((ho.mono hP₂).mono hP₃)
  | native n =>
    cases n
    rw [LoxKit.apply, LoxKit.apply]
    refine .of_done hs.tick ?_
    rw [hs.readings]
    exact .number _
  | nil | bool | number | string | object =>
    rw [LoxKit.apply, LoxKit.apply]
    · exact .of_done hs .nil
    all_goals simp

theorem Abreast.invoke_succ (hp : Abreast h fuel) {c c' : Closure} {args args' : List Value}
    (hc : ClosureTwin P c c') (hargs : List.Forall₂ (ValueTwin P) args args') (hs : Twins P s s') :
    InStep P (fun P' => ValueTwin P') (LoxKit.invoke h (fuel + 1) depth c args s)
      (LoxKit.invoke h (fuel + 1) depth c' args' s') := by
  have hparams := hc.params
  obtain ⟨-, hinit, hr, hf, hf', ha⟩ := hc
  rw [LoxKit.invoke, LoxKit.invoke, hparams, hinit]
  refine (newFrame_inStep hs (parameterFrame_twins c.function.params hargs)).bind
    fun P₁ frame frame' t t' hP₁ ht hframe => ?_
  rw [hf, hf', linkFunction_body, linkFunction_body]
  have ha₁ := ha.mono hP₁
  refine (hp.executeAll hr.call ((Flush.both hframe ha₁.aligned).introduceAll _) ht).bind
    fun P₂ completion completion' u u' hP₂ hu hdone => ?_
  refine .ite Iff.rfl ?_ (.of_done hu hdone.value)
  obtain ⟨i, j, outer, outer', hchain, hchain', hij⟩ := (ha₁.mono hP₂).heads
  rw [hchain, hchain']
  exact getAt_inStep (.some rfl rfl hij) hu Keyword.this.word

/-! ## Statements -/

/-- A class gets its methods and its name. -/
theorem nameClass_inStep {name : Name} {above above' : Option ClassValue}
    {inside inside' : Scopes} {methodChain methodChain' : Chain}
    (aroundOf : Function Unit → Surroundings) {fs : List (Function Unit)}
    (hr : ∀ f ∈ fs, Regular ⟨aroundOf f, inside, .method f⟩ names)
    (habove : Option.Rel (ClassTwin P) above above')
    (hinside : Aligned P inside methodChain inside' methodChain')
    (ha : Flush P scopes chain scopes' chain') (hs : Twins P s s') :
    InStep P (fun P' => CompletionTwin P')
      ((do
        let table ← newMethods methodChain (fs.map fun f =>
          (linkFunction (aroundOf f) (.single Keyword.this.word :: inside) f).tree) .empty
        let id ← newId
        defineIn chain name.text (.ofClass (.mk id name.text above table))
        pure .carryOn : Action Completion) s)
      ((do
        let table ← newMethods methodChain' (fs.map fun f =>
          (linkFunction (aroundOf f) (.single Keyword.this.word :: inside') f).tree) .empty
        let id ← newId
        defineIn chain' name.text (.ofClass (.mk id name.text above' table))
        pure .carryOn : Action Completion) s') := by
  refine (newMethods_inStep hinside aroundOf hr hs fun _ => .none).bind
    fun P₁ table table' t t' hP₁ ht htable => ?_
  refine (newId_inStep ht).bind fun P₂ id id' u u' hP₂ hu hid => ?_
  subst hid
  have hclass : ClassTwin P₂ (.mk id' name.text above table) (.mk id' name.text above' table') := by
    have htable₂ := fun key => optionRel_mono (fun _ _ hc => MethodTwin.mono hP₂ hc) (htable key)
    cases habove with
    | none => exact .root htable₂
    | some hk => exact .derived ((hk.mono hP₁).mono hP₂) htable₂
  exact (((ha.mono hP₁).mono hP₂).defineIn hu name.text (.ofClass hclass)).bind
    fun _ _ _ _ _ _ hw _ => .of_done hw .carryOn

theorem declareClass_inStep {name : Name} {superclass : Option (Reference Unit)}
    {methods : List (Function Unit)}
    (hr : Regular ⟨around, scopes, .stmt (.classDecl name superclass methods)⟩ names)
    (ha : Flush P scopes chain scopes' chain') (hs : Twins P s s') :
    InStep P (fun P' => CompletionTwin P')
      (execute h (fuel + 1) depth chain
        (linkStmt around scopes (.classDecl name superclass methods)).tree s)
      (execute h (fuel + 1) depth chain'
        (linkStmt around scopes' (.classDecl name superclass methods)).tree s') := by
  have hmethods := fun f hf => hr.method rfl (f := f) hf
  have hadd := ha.add name.text
  simp only [linkStmt, Scopes.introduce_fst, List.map_map, Function.comp_def, methodScopes]
  rw [execute, execute]
  cases superclass with
  | none =>
    refine InStep.bind (Q := fun _ a b => a = none ∧ b = none) (.of_done hs ⟨rfl, rfl⟩)
      fun P₁ a b t t' hP₁ ht hab => ?_
    obtain ⟨rfl, rfl⟩ := hab
    refine ((ha.mono hP₁).defineIn ht name.text .nil).bind fun P₂ _ _ u u' hP₂ hu _ => ?_
    have hP := le_trans hP₁ hP₂
    exact nameClass_inStep _ hmethods .none (hadd.aligned.mono hP) (ha.mono hP) hu
  | some r =>
    refine (hadd.aligned.follow hs (hadd.aligned.leads _) r.name).bind
      fun P₁ v v' t t' hP₁ ht hv => ?_
    cases hv with
    | ofClass hk =>
      refine ((ha.mono hP₁).defineIn ht name.text .nil).bind fun P₂ _ _ u u' hP₂ hu _ => ?_
      have hk₂ := hk.mono hP₂
      refine (newFrame_inStep hu (single_twins _ (.ofClass hk₂))).bind
        fun P₃ frame frame' w w' hP₃ hw hframe => ?_
      have hP := le_trans hP₁ (le_trans hP₂ hP₃)
      exact nameClass_inStep _ hmethods (.some (hk₂.mono hP₃))
        (.both hframe (hadd.aligned.mono hP)) (ha.mono hP) hw
    | _ => exact .of_failed ht _ _

theorem Abreast.execute_succ (hp : Abreast h fuel) {st : Stmt Unit}
    (hr : Regular ⟨around, scopes, .stmt st⟩ names) (ha : Aligned P scopes chain scopes' chain')
    (hflush : st.declares ≠ [] → Flush P scopes chain scopes' chain') (hs : Twins P s s') :
    InStep P (fun P' => CompletionTwin P')
      (LoxKit.execute h (fuel + 1) depth chain (linkStmt around scopes st).tree s)
      (LoxKit.execute h (fuel + 1) depth chain' (linkStmt around scopes' st).tree s') := by
  cases st with
  | expression e =>
    rw [linkStmt, linkStmt, LoxKit.execute, LoxKit.execute]
    exact (hp.evaluate (hr.part (i := 0) rfl) ha hs).bind
      fun _ _ _ _ _ _ ht _ => .of_done ht .carryOn
  | print e =>
    rw [linkStmt, linkStmt, LoxKit.execute, LoxKit.execute]
    refine (hp.evaluate (hr.part (i := 0) rfl) ha hs).bind fun P₁ v v' t t' hP₁ ht hv => ?_
    rw [hv.text]
    exact (printLine_inStep ht v.text).bind fun _ _ _ _ _ _ hu _ => .of_done hu .carryOn
  | var name initializer =>
    have ha' := hflush (List.cons_ne_nil _ _)
    rw [linkStmt, linkStmt]
    cases initializer with
    | none =>
      simp only [linkExpr?]
      rw [LoxKit.execute, LoxKit.execute]
      exact (ha'.defineIn hs name.text .nil).bind fun _ _ _ _ _ _ ht _ => .of_done ht .carryOn
    | some e =>
      simp only [linkExpr?, Linked.map_tree]
      rw [LoxKit.execute, LoxKit.execute]
      refine (hp.evaluate (hr.part (i := 0) rfl) (ha'.declare name).aligned hs).bind
        fun P₁ v v' t t' hP₁ ht hv => ?_
      exact ((ha'.mono hP₁).defineIn ht name.text hv).bind
        fun _ _ _ _ _ _ hu _ => .of_done hu .carryOn
  | block body =>
    rw [linkStmt, linkStmt, LoxKit.execute, LoxKit.execute]
    exact (newFrame_inStep hs fun _ => .none).bind fun P₁ frame frame' t t' hP₁ ht hframe =>
      hp.executeAll (hr.block rfl) (.both hframe (ha.mono hP₁)) ht
  | ifThen condition thenPart =>
    have hd : thenPart.declares = [] := by
      cases hr.proper with
      | ifThen _ _ hd => exact hd
    rw [linkStmt, linkStmt, LoxKit.execute, LoxKit.execute]
    refine (hp.evaluate (hr.part (i := 0) rfl) ha hs).bind fun P₁ v v' t t' hP₁ ht hv => ?_
    exact .ite (Iff.of_eq (by rw [hv.truthy]))
      (hp.execute (hr.part (i := 1) rfl) (ha.mono hP₁) (absurd hd) ht) (.of_done ht .carryOn)
  | ifElse condition thenPart elsePart =>
    obtain ⟨ht, hd, he, hd'⟩ : thenPart.Proper ∧ thenPart.declares = [] ∧ elsePart.Proper ∧
        elsePart.declares = [] := by
      cases hr.proper with
      | ifElse _ ht hd he hd' => exact ⟨ht, hd, he, hd'⟩
    rw [linkStmt, linkStmt, LoxKit.execute, LoxKit.execute, scopes_linkStmt_guarded ht hd,
      scopes_linkStmt_guarded ht hd]
    refine (hp.evaluate (hr.part (i := 0) rfl) ha hs).bind fun P₁ v v' t t' hP₁ ht hv => ?_
    exact .ite (Iff.of_eq (by rw [hv.truthy]))
      (hp.execute (hr.part (i := 1) rfl) (ha.mono hP₁) (absurd hd) ht)
      (hp.execute (hr.part (i := 2) rfl) (ha.mono hP₁) (absurd hd') ht)
  | whileDo condition body =>
    rw [linkStmt, linkStmt, LoxKit.execute, LoxKit.execute]
    exact hp.repeatWhile (hr.part (i := 0) rfl) ha hs
  | function f =>
    have ha' := hflush (List.cons_ne_nil _ _)
    simp only [linkStmt, Scopes.introduce_fst]
    rw [LoxKit.execute, LoxKit.execute, linkFunction_name, linkFunction_name]
    refine (newClosure_inStep hs (ha'.add _) (hr.function rfl) false).bind
      fun P₁ c c' t t' hP₁ ht hc => ?_
    exact ((ha'.mono hP₁).defineIn ht f.name.text (.closure hc)).bind
      fun _ _ _ _ _ _ hu _ => .of_done hu .carryOn
  | giveBack keyword value =>
    rw [linkStmt, linkStmt]
    cases value with
    | none =>
      simp only [linkExpr?]
      rw [LoxKit.execute, LoxKit.execute]
      exact .of_done hs (.returned .nil)
    | some e =>
      simp only [linkExpr?, Linked.map_tree]
      rw [LoxKit.execute, LoxKit.execute]
      exact (hp.evaluate (hr.part (i := 0) rfl) ha hs).bind
        fun _ _ _ _ _ _ ht hv => .of_done ht (.returned hv)
  | classDecl name superclass methods =>
    exact declareClass_inStep hr (hflush (List.cons_ne_nil _ _)) hs

theorem Abreast.executeAll_succ (hp : Abreast h fuel) {sts : List (Stmt Unit)}
    (hr : Regular ⟨around, scopes, .stmts sts⟩ names) (ha : Flush P scopes chain scopes' chain')
    (hs : Twins P s s') :
    InStep P (fun P' => CompletionTwin P')
      (LoxKit.executeAll h (fuel + 1) depth chain (linkStmts around scopes sts).tree s)
      (LoxKit.executeAll h (fuel + 1) depth chain' (linkStmts around scopes' sts).tree s') := by
  cases sts with
  | nil =>
    rw [linkStmts, linkStmts, LoxKit.executeAll, LoxKit.executeAll]
    exact .of_done hs .carryOn
  | cons st sts =>
    have hst : st.Proper := hr.proper st List.mem_cons_self
    have hrest := hr.part (i := 1) rfl
    rw [linkStmts, linkStmts, LoxKit.executeAll, LoxKit.executeAll]
    refine (hp.execute (hr.part (i := 0) rfl) ha.aligned (fun _ => ha) hs).bind
      fun P₁ c c' t t' hP₁ ht hc => ?_
    cases hc with
    | carryOn =>
      refine hp.executeAll hrest ?_ ht
      show Flush P₁ (linkStmt around scopes st).scopes chain (linkStmt around scopes' st).scopes chain'
      rw [scopes_linkStmt around hst, scopes_linkStmt around hst]
      exact (ha.mono hP₁).addAll
    | returned hv => exact .of_done ht (.returned hv)

theorem Abreast.repeatWhile_succ (hp : Abreast h fuel) {condition : Expr Unit} {body : Stmt Unit}
    (hr : Regular ⟨around, scopes, .loop condition body⟩ names)
    (ha : Aligned P scopes chain scopes' chain') (hs : Twins P s s') :
    InStep P (fun P' => CompletionTwin P')
      (LoxKit.repeatWhile h (fuel + 1) depth chain (linkExpr around scopes condition).tree
        (linkStmt around scopes body).tree s)
      (LoxKit.repeatWhile h (fuel + 1) depth chain' (linkExpr around scopes' condition).tree
        (linkStmt around scopes' body).tree s') := by
  have hd : body.declares = [] := hr.proper.2.2
  rw [LoxKit.repeatWhile, LoxKit.repeatWhile]
  refine (hp.evaluate (hr.part (i := 0) rfl) ha hs).bind fun P₁ v v' t t' hP₁ ht hv => ?_
  refine .ite (Iff.of_eq (by rw [hv.truthy])) ?_ (.of_done ht .carryOn)
  refine (hp.execute (hr.part (i := 1) rfl) (ha.mono hP₁) (absurd hd) ht).bind
    fun P₂ c c' u u' hP₂ hu hc => ?_
  cases hc with
  | carryOn => exact hp.repeatWhile (hr.part (i := 2) rfl) ((ha.mono hP₁).mono hP₂) hu
  | returned hv => exact .of_done hu (.returned hv)

/-- **What runs in aligned chains runs abreast.** -/
theorem abreast (h : Host) (fuel : Nat) : Abreast h fuel := by
  induction fuel with
  | zero => exact abreast_zero
  | succ fuel ih =>
    exact ⟨ih.evaluate_succ, ih.evaluateAll_succ, ih.apply_succ, ih.invoke_succ, ih.execute_succ,
      ih.executeAll_succ, ih.repeatWhile_succ⟩

end LoxKit
