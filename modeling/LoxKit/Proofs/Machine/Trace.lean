import LoxKit.Proofs.Machine.Declaration
import Mathlib.Logic.Relation

/-!
# How stores change

What begins in a moment changes the store in few ways. It lets other moments run; it adds a frame;
it changes what is not kept in frames; it declares a name in the innermost frame, if it is a
declaration; or it changes a variable, if it is an assignment. So whatever relation of stores is
kept in these ways is kept by all that runs, also by what fails. Only the first three ways come
before a moment leads to another.

Headlines:
* `Passes`, `Changes`: the ways in which a moment changes the store.
* `Traced.bind`: an action behind another.
* **`Moment.traced`**: what a moment leaves comes about in these ways only.
* `Calls.traced`: so does what is found by the moments that it leads to.
-/

namespace LoxKit

open LoxKit.Action

/-- The ways in which the store changes before a moment leads to another. -/
inductive Passes (h : Host) (m : Moment) : Store → Store → Prop
  /-- A moment that it leads to runs. -/
  | called {m' : Moment} {s' : Store} (hc : Calls h m m') (hl : m'.leaves? h = some s') :
      Passes h m m'.store s'
  /-- The frames stay as they are, and so do the objects, but for their fields and a new one. No
  identity is given twice. -/
  | aside {s s' : Store} (hf : s'.frames = s.frames) (ho : s.objects.size ≤ s'.objects.size)
      (hi : s.fresh ≤ s'.fresh) : Passes h m s s'
  /-- A frame is made. -/
  | pushed {s : Store} (b : Bindings Value) : Passes h m s { s with frames := s.frames.push b }

/-- The ways in which what begins in a moment changes the store. -/
inductive Changes (h : Host) (m : Moment) : Store → Store → Prop
  | passes {s s' : Store} (hp : Passes h m s s') : Changes h m s s'
  /-- A name is declared. -/
  | declared {st : Stmt Link} {fuel depth : Nat} {chain : Chain} {s₀ s s' : Store} {name : String}
      {v : Value} (hm : m = .run (.stmt st) fuel depth chain s₀) (hn : name ∈ st.declares)
      (hd : defineIn chain name v s = .done () s') : Changes h m s s'
  /-- A variable is changed. -/
  | assigned {target : Reference Link} {value : Expr Link} {fuel depth : Nat} {chain : Chain}
      {s₀ s s' : Store} {v : Value}
      (hm : m = .run (.expr (.assign target value)) fuel depth chain s₀)
      (hd : store chain target v s = .done () s') : Changes h m s s'

/-- What an outcome leaves comes about in these ways from a store. -/
def Traced {α : Type} (h : Host) (m : Moment) (s : Store) (o : Outcome α) : Prop :=
  ∀ s', o.store? = some s' → Relation.ReflTransGen (Changes h m) s s'

section Rules

variable {h : Host} {m : Moment} {s : Store} {α β : Type}

theorem traced_done {a : α} : Traced h m s (.done a s) :=
  fun _ hs => by cases hs; exact .refl

theorem traced_failed {error : RuntimeError} {line : Nat} :
    Traced h m s (.failed error line s : Outcome α) :=
  fun _ hs => by cases hs; exact .refl

theorem traced_broken {breakage : Breakage} : Traced h m s (.broken breakage : Outcome α) :=
  fun _ hs => by cases hs

theorem traced_unfinished : Traced h m s (.unfinished : Outcome α) :=
  fun _ hs => by cases hs

/-- An action behind another. -/
theorem Traced.bind {a : Action α} {f : α → Action β} (ha : Traced h m s (a s))
    (hf : ∀ x s₁, a s = .done x s₁ → Traced h m s₁ (f x s₁)) : Traced h m s ((a >>= f) s) := by
  show Traced h m s (Action.bind a f s)
  unfold Action.bind
  cases hd : a s with
  | done x s₁ =>
    exact fun s' hs => (ha s₁ (by rw [hd]; rfl)).trans (hf x s₁ hd s' hs)
  | failed error line s₁ =>
    intro s' hs
    exact ha s' (by rw [hd]; exact hs)
  | broken breakage => exact traced_broken
  | unfinished => exact traced_unfinished

theorem Traced.map {o : Outcome α} (f : α → β) (ho : Traced h m s (o.map f)) : Traced h m s o := by
  intro s' hs
  exact ho s' (by rw [Outcome.store?_map, hs])

theorem traced_map {o : Outcome α} (f : α → β) (ho : Traced h m s o) : Traced h m s (o.map f) := by
  intro s' hs
  exact ho s' (by rw [← hs, Outcome.store?_map])

/-- What a moment that is led to leaves. -/
theorem traced_called {m' : Moment} (hc : Calls h m m') {o : Outcome α}
    (ho : o.store? = m'.leaves? h) : Traced h m m'.store o :=
  fun _ hs => .single (.passes (.called hc (ho ▸ hs)))

theorem traced_ite {c : Prop} [Decidable c] {a b : Action α} (ha : c → Traced h m s (a s))
    (hb : ¬c → Traced h m s (b s)) : Traced h m s ((if c then a else b) s) := by
  split
  · exact ha ‹_›
  · exact hb ‹_›

theorem traced_change {f : Store → Store} (hf : (f s).frames = s.frames)
    (ho : s.objects.size ≤ (f s).objects.size) (hi : s.fresh ≤ (f s).fresh) :
    Traced h m s (change f s) :=
  fun _ hs => by cases hs; exact .single (.passes (.aside hf ho hi))

theorem traced_newFrame (b : Bindings Value) : Traced h m s (newFrame b s) :=
  fun _ hs => by cases hs; exact .single (.passes (.pushed b))

theorem traced_operator (line : Nat) (r : Except RuntimeError Value) :
    Traced h m s (ofOperator line r s) := by
  cases r with
  | ok v => exact traced_done
  | error e => exact traced_failed

theorem traced_access (r : Except AccessFault α) : Traced h m s (ofAccess r s) := by
  cases r with
  | ok v => exact traced_done
  | error e => exact traced_broken

theorem ofAccess_eq_done {r : Except AccessFault α} {a : α} {s' : Store}
    (ho : ofAccess r s = .done a s') : r = .ok a ∧ s' = s := by
  cases r with
  | ok v =>
    cases ho
    exact ⟨rfl, rfl⟩
  | error e => cases ho

theorem traced_closure {a : Action Closure} (ha : Traced h m s (a s)) :
    Traced h m s ((Value.closure <$> a) s) :=
  Traced.bind ha fun _ _ _ => traced_done

theorem traced_follow (chain : Chain) (r : Reference Link) : Traced h m s (follow chain r s) := by
  unfold follow
  split
  · exact traced_access _
  · split
    · exact traced_done
    · exact traced_failed

theorem traced_newId : Traced h m s (newId s) :=
  fun _ hs => by cases hs; exact .single (.passes (.aside rfl (Nat.le_refl _) (Nat.le_succ _)))

theorem size_push_object (s : Store) :
    s.objects.size ≤ (s.objects.push (.empty : Bindings Value)).size := by
  rw [Array.size_push]
  exact Nat.le_succ _

theorem traced_newObject (k : ClassValue) : Traced h m s (newObject k s) :=
  fun _ hs => by cases hs; exact .single (.passes (.aside rfl (size_push_object s) (Nat.le_refl _)))

theorem traced_newClosure (f : Function Link) (captured : Chain) (isInitializer : Bool) :
    Traced h m s (newClosure f captured isInitializer s) :=
  fun _ hs => by cases hs; exact .single (.passes (.aside rfl (Nat.le_refl _) (Nat.le_succ _)))

theorem traced_newMethods (chain : Chain) (fs : List (Function Link)) (table : Bindings Closure) :
    Traced h m s (newMethods chain fs table s) := by
  induction fs generalizing table s with
  | nil => exact traced_done
  | cons f fs ih => exact .bind (traced_newClosure f chain _) fun _ _ _ => ih _

theorem traced_bindMethod (c : Closure) (o : Object) : Traced h m s (bindMethod c o s) :=
  .bind (traced_newFrame _) fun _ _ _ => traced_newClosure _ _ _

end Rules

/-! ## Parts of nodes -/

section Parts

variable {h : Host} {n : Node Link} {fuel depth i j : Nat} {chain : Chain} {s s₁ s₂ : Store}

theorem traced_part {n' : Node Link} (hs : Stage h n fuel depth chain s i s₁)
    (hn : n.part i = some n') :
    Traced h (.run n (fuel + 1) depth chain s) s₁ (n'.run h fuel depth chain s₁) :=
  traced_called (Calls.part hs hn) rfl

theorem traced_expr {e : Expr Link} (hs : Stage h n fuel depth chain s i s₁)
    (hn : n.part i = some (.expr e)) :
    Traced h (.run n (fuel + 1) depth chain s) s₁ (evaluate h fuel depth chain e s₁) :=
  .map Answer.value (traced_part hs hn)

theorem traced_exprs {es : List (Expr Link)} (hs : Stage h n fuel depth chain s i s₁)
    (hn : n.part i = some (.exprs es)) :
    Traced h (.run n (fuel + 1) depth chain s) s₁ (evaluateAll h fuel depth chain es s₁) :=
  .map Answer.values (traced_part hs hn)

theorem traced_stmt {st : Stmt Link} (hs : Stage h n fuel depth chain s i s₁)
    (hn : n.part i = some (.stmt st)) :
    Traced h (.run n (fuel + 1) depth chain s) s₁ (execute h fuel depth chain st s₁) :=
  .map Answer.completion (traced_part hs hn)

theorem traced_stmts {sts : List (Stmt Link)} (hs : Stage h n fuel depth chain s i s₁)
    (hn : n.part i = some (.stmts sts)) :
    Traced h (.run n (fuel + 1) depth chain s) s₁ (executeAll h fuel depth chain sts s₁) :=
  .map Answer.completion (traced_part hs hn)

theorem traced_loop {condition : Expr Link} {body : Stmt Link}
    (hs : Stage h n fuel depth chain s i s₁) (hn : n.part i = some (.loop condition body)) :
    Traced h (.run n (fuel + 1) depth chain s) s₁
      (repeatWhile h fuel depth chain condition body s₁) :=
  .map Answer.completion (traced_part hs hn)

/-- The stage behind the value of an expression. -/
theorem Stage.expr {e : Expr Link} {v : Value} (hs : Stage h n fuel depth chain s i s₁)
    (hn : n.part i = some (.expr e)) (he : evaluate h fuel depth chain e s₁ = .done v s₂)
    (hj : n.next? i (.value v) = some j) : Stage h n fuel depth chain s j s₂ :=
  .next hs hn (by rw [Node.run, he]; rfl) hj

/-- The stage behind a statement that carries on. -/
theorem Stage.stmt {st : Stmt Link} {c : Completion} (hs : Stage h n fuel depth chain s i s₁)
    (hn : n.part i = some (.stmt st)) (he : execute h fuel depth chain st s₁ = .done c s₂)
    (hj : n.next? i (.completion c) = some j) : Stage h n fuel depth chain s j s₂ :=
  .next hs hn (by rw [Node.run, he]; rfl) hj

end Parts

/-! ## Expressions -/

section Expressions

variable {h : Host} {fuel depth : Nat} {chain : Chain} {s : Store}

/-- An assignment evaluates its value first. -/
theorem evaluate_assign (target : Reference Link) (value : Expr Link) :
    evaluate h (fuel + 1) depth chain (.assign target value) s =
      Action.bind (evaluate h fuel depth chain value)
        (fun v => Action.bind (store chain target v) fun _ => Action.pure v) s := by
  rw [evaluate]
  rfl

/-- Changing a variable fails before anything changes. -/
theorem store_failed {target : Reference Link} {v : Value} {s' : Store} {error : RuntimeError}
    {line : Nat} (hd : store chain target v s = .failed error line s') : s' = s := by
  unfold store at hd
  split at hd
  · split at hd <;> cases hd
  · split at hd <;> cases hd
    rfl

/-- A variable is changed, or nothing is. -/
theorem traced_store {target : Reference Link} {value : Expr Link} {s₀ : Store} {v : Value} :
    Traced h (.run (.expr (.assign target value)) fuel depth chain s₀) s
      (store chain target v s) := by
  intro s' hs
  cases hd : store chain target v s with
  | done u s₁ =>
    rw [hd] at hs
    cases hs
    exact .single (.assigned rfl hd)
  | failed error line s₁ =>
    rw [hd] at hs
    cases hs
    rw [store_failed hd]
  | broken breakage | unfinished =>
    rw [hd] at hs
    cases hs

theorem traced_getProperty {object : Expr Link} {field : Name} {o : Object} {s₁ : Store}
    (ho : evaluate h fuel depth chain object s = .done (.object o) s₁) :
    Traced h (.run (.expr (.get object field)) (fuel + 1) depth chain s) s₁
      (getProperty o field s₁) := by
  unfold getProperty
  cases hf : (fields s₁ o).get? field.text with
  | some v => exact traced_done
  | none =>
    cases hc : o.ofClass.findMethod? field.text with
    | none => exact traced_failed
    | some c =>
      have hcall : Calls h (.run (.expr (.get object field)) (fuel + 1) depth chain s)
        (.bind c o s₁) := .get ho hf hc
      exact traced_closure (traced_called hcall rfl)

/-- What the evaluation of a superclass reference comes to, given what the frames bind. -/
theorem evaluate_super {target : Reference Link} {method : Name} {hops : Nat} {k : ClassValue}
    {o : Object} (ht : target.link = some hops)
    (hk : s.frames.getAt chain hops Keyword.super.word = .ok (.ofClass k))
    (ho : s.frames.getAt chain (hops - 1) Keyword.this.word = .ok (.object o)) :
    evaluate h (fuel + 1) depth chain (.super target method) s =
      match k.findMethod? method.text with
      | none => .failed (.undefinedProperty method.text) method.pos.line s
      | some c => (Value.closure <$> bindMethod c o) s := by
  have habove : ofAccess (s.frames.getAt chain hops Keyword.super.word) s = .done (.ofClass k) s :=
    by rw [hk]; rfl
  have hreceiver : ofAccess (s.frames.getAt chain (hops - 1) Keyword.this.word) s =
      .done (.object o) s := by rw [ho]; rfl
  rw [evaluate]
  simp only [ht]
  refine (Action.bind_of_done habove).trans ?_
  refine (Action.bind_of_done hreceiver).trans ?_
  dsimp only
  cases k.findMethod? method.text <;> rfl

theorem traced_super (target : Reference Link) (method : Name) :
    Traced h (.run (.expr (.super target method)) (fuel + 1) depth chain s) s
      (evaluate h (fuel + 1) depth chain (.super target method) s) := by
  rw [evaluate]
  cases ht : target.link with
  | none => exact traced_broken
  | some hops =>
    refine .bind (traced_access _) fun above s₁ habove => ?_
    obtain ⟨hk, rfl⟩ := ofAccess_eq_done habove
    refine .bind (traced_access _) fun receiver s₂ hreceiver => ?_
    obtain ⟨ho, rfl⟩ := ofAccess_eq_done hreceiver
    cases above with
    | ofClass k =>
      dsimp only
      cases hc : k.findMethod? method.text with
      | none => exact traced_failed
      | some c =>
        cases receiver with
        | object o =>
          have hcall : Calls h (.run (.expr (.super target method)) (fuel + 1) depth chain s₂)
            (.bind c o s₂) := .super ht hk ho hc
          exact traced_closure (traced_called hcall rfl)
        | _ => exact traced_broken
    | _ => exact traced_broken

theorem traced_evaluate (e : Expr Link) :
    Traced h (.run (.expr e) (fuel + 1) depth chain s) s
      (evaluate h (fuel + 1) depth chain e s) := by
  cases e with
  | literal value token =>
    rw [evaluate]
    exact traced_done
  | grouping inner =>
    rw [evaluate]
    exact traced_expr .first rfl
  | unary op pos arg =>
    rw [evaluate]
    exact .bind (traced_expr .first rfl) fun a s₁ _ => traced_operator _ _
  | binary op pos lhs rhs =>
    rw [evaluate]
    refine .bind (traced_expr .first rfl) fun a s₁ ha => ?_
    exact .bind (traced_expr (.expr .first rfl ha rfl) rfl) fun b s₂ _ => traced_operator _ _
  | logical op pos lhs rhs =>
    rw [evaluate]
    refine .bind (traced_expr .first rfl) fun a s₁ ha => traced_ite (fun _ => traced_done) ?_
    intro hop
    have hj : Node.next? (.expr (.logical op pos lhs rhs)) 0 (.value a) = some 1 := by
      simp [Node.next?, hop]
    exact traced_expr (.expr .first rfl ha hj) rfl
  | var target =>
    rw [evaluate]
    exact traced_follow _ _
  | assign target value =>
    rw [evaluate]
    refine .bind (traced_expr .first rfl) fun v s₁ _ => ?_
    exact .bind traced_store fun _ s₂ _ => traced_done
  | call callee args paren =>
    rw [evaluate]
    refine .bind (traced_expr .first rfl) fun f s₁ hf => ?_
    refine .bind (traced_exprs (.expr .first rfl hf rfl) rfl) fun vs s₂ ha => ?_
    cases hv : f.arity? with
    | none => exact traced_failed
    | some arity =>
      refine traced_ite (fun _ => traced_failed) fun hlen => ?_
      refine traced_ite (fun _ => traced_failed) fun hd => ?_
      have harity : f.arity? = some vs.length := by rw [hv, not_not.mp hlen]
      exact traced_called (.call hf ha harity (Nat.not_le.mp hd)) rfl
  | get object field =>
    rw [evaluate]
    refine .bind (traced_expr .first rfl) fun v s₁ hv => ?_
    cases v with
    | object o => exact traced_getProperty hv
    | _ => exact traced_failed
  | set object field value =>
    rw [evaluate]
    refine .bind (traced_expr .first rfl) fun v s₁ hv => ?_
    cases v with
    | object o =>
      refine .bind (traced_expr (.expr .first rfl hv rfl) rfl) fun v s₂ _ => ?_
      have hsize : s₂.objects.size ≤ (s₂.objects.modify o.id fun b => b.set field.text v).size := by
        rw [Array.size_modify]
      exact .bind (traced_change rfl hsize (Nat.le_refl _)) fun _ _ _ => traced_done
    | _ => exact traced_failed
  | this target =>
    rw [evaluate]
    exact traced_follow _ _
  | super target method => exact traced_super target method

theorem traced_evaluateAll (es : List (Expr Link)) :
    Traced h (.run (.exprs es) (fuel + 1) depth chain s) s
      (evaluateAll h (fuel + 1) depth chain es s) := by
  cases es with
  | nil =>
    rw [evaluateAll]
    exact traced_done
  | cons e es =>
    rw [evaluateAll]
    refine .bind (traced_expr .first rfl) fun v s₁ hv => ?_
    exact .bind (traced_exprs (.expr .first rfl hv rfl) rfl) fun vs s₂ _ => traced_done

end Expressions

/-! ## Calls -/

section Calling

variable {h : Host} {fuel depth : Nat} {s : Store} {args : List Value}

theorem traced_apply (f : Value) :
    Traced h (.apply f args (fuel + 1) depth s) s (apply h (fuel + 1) depth f args s) := by
  cases f with
  | closure c =>
    rw [apply]
    exact traced_called .closure rfl
  | native n =>
    cases n
    rw [apply]
    exact fun _ hs => by
      cases hs
      exact .single (.passes (.aside rfl (Nat.le_refl _) (Nat.le_refl _)))
  | ofClass k =>
    rw [apply]
    refine .bind (traced_newObject k) fun o s₁ ho => ?_
    cases ho
    cases hc : k.findMethod? initName with
    | none => exact traced_done
    | some c =>
      refine .bind (traced_called (.construct hc) rfl) fun c' s₂ hb => ?_
      exact .bind (traced_called (.initializer hc hb) rfl) fun _ _ _ => traced_done
  | _ =>
    rw [apply] <;> first | exact traced_done | simp

theorem traced_invoke (c : Closure) :
    Traced h (.invoke c args (fuel + 1) depth s) s (invoke h (fuel + 1) depth c args s) := by
  rw [invoke]
  refine .bind (traced_newFrame _) fun frame s₁ hframe => ?_
  cases hframe
  refine .bind (.map Answer.completion (traced_called .body rfl)) fun completion s₂ _ => ?_
  refine traced_ite (fun _ => ?_) fun _ => traced_done
  exact .bind traced_done fun _ _ hr => by cases hr; exact traced_access _

end Calling

/-! ## Statements -/

section Statements

variable {h : Host} {fuel depth : Nat} {chain : Chain} {s : Store}

theorem traced_defineIn {st : Stmt Link} {s₀ s₁ : Store} {name : String} (v : Value)
    (hn : name ∈ st.declares) :
    Traced h (.run (.stmt st) fuel depth chain s₀) s₁ (defineIn chain name v s₁) := by
  intro s' hs
  cases chain with
  | nil => cases hs
  | cons id rest =>
    cases hs
    exact .single (.declared rfl hn rfl)

theorem traced_declareClass {name : Name} {superclass : Option (Reference Link)}
    {methods : List (Function Link)} {s₁ : Store} (inner : Chain) (above : Option ClassValue) :
    Traced h (.run (.stmt (.classDecl name superclass methods)) fuel depth chain s) s₁
      (declareClass chain inner name above methods s₁) := by
  unfold declareClass
  refine .bind (traced_newMethods _ _ _) fun table s₂ _ => ?_
  refine .bind traced_newId fun id s₃ _ => ?_
  exact .bind (traced_defineIn _ (List.mem_singleton_self _)) fun _ _ _ => traced_done

theorem traced_class (name : Name) (superclass : Option (Reference Link))
    (methods : List (Function Link)) :
    Traced h (.run (.stmt (.classDecl name superclass methods)) (fuel + 1) depth chain s) s
      (execute h (fuel + 1) depth chain (.classDecl name superclass methods) s) := by
  rw [execute]
  cases superclass with
  | none =>
    refine Traced.bind traced_done fun above s₁ habove => ?_
    cases habove
    refine .bind (traced_defineIn _ (List.mem_singleton_self _)) fun _ s₂ _ => ?_
    exact Traced.bind traced_done fun inner s₃ _ => traced_declareClass inner none
  | some r =>
    refine .bind (traced_follow chain r) fun v s₁ hv => ?_
    cases v with
    | ofClass k =>
      refine Traced.bind traced_done fun above s₂ habove => ?_
      cases habove
      refine .bind (traced_defineIn _ (List.mem_singleton_self _)) fun _ s₃ _ => ?_
      exact .bind (traced_newFrame _) fun frame s₄ _ =>
        traced_declareClass (frame :: chain) (some k)
    | _ => exact Traced.bind traced_failed fun _ _ hfail => by cases hfail

theorem traced_execute (st : Stmt Link) :
    Traced h (.run (.stmt st) (fuel + 1) depth chain s) s
      (execute h (fuel + 1) depth chain st s) := by
  cases st with
  | expression e =>
    rw [execute]
    exact .bind (traced_expr .first rfl) fun _ _ _ => traced_done
  | print e =>
    rw [execute]
    refine .bind (traced_expr .first rfl) fun v s₁ _ => ?_
    exact .bind (traced_change rfl (Nat.le_refl _) (Nat.le_refl _)) fun _ _ _ => traced_done
  | var name initializer =>
    cases initializer with
    | none =>
      rw [execute]
      exact .bind (traced_defineIn _ (List.mem_singleton_self _)) fun _ _ _ => traced_done
    | some e =>
      rw [execute]
      refine .bind (traced_expr .first rfl) fun v s₁ _ => ?_
      exact .bind (traced_defineIn _ (List.mem_singleton_self _)) fun _ _ _ => traced_done
  | block body =>
    rw [execute]
    refine .bind (traced_newFrame _) fun frame s₁ hframe => ?_
    cases hframe
    exact .map Answer.completion (traced_called .block rfl)
  | ifThen condition thenPart =>
    rw [execute]
    refine .bind (traced_expr .first rfl) fun v s₁ hv => traced_ite ?_ fun _ => traced_done
    intro htrue
    have hj : Node.next? (.stmt (.ifThen condition thenPart)) 0 (.value v) = some 1 := if_pos htrue
    exact traced_stmt (.expr .first rfl hv hj) rfl
  | ifElse condition thenPart elsePart =>
    rw [execute]
    refine .bind (traced_expr .first rfl) fun v s₁ hv => traced_ite ?_ ?_
    · intro htrue
      have hj : Node.next? (.stmt (.ifElse condition thenPart elsePart)) 0 (.value v) = some 1 :=
        if_pos htrue
      exact traced_stmt (.expr .first rfl hv hj) rfl
    · intro hfalse
      have hj : Node.next? (.stmt (.ifElse condition thenPart elsePart)) 0 (.value v) = some 2 :=
        if_neg hfalse
      exact traced_stmt (.expr .first rfl hv hj) rfl
  | whileDo condition body =>
    rw [execute]
    exact traced_loop .first rfl
  | function f =>
    rw [execute]
    refine .bind (traced_newClosure _ _ _) fun c s₁ _ => ?_
    exact .bind (traced_defineIn _ (List.mem_singleton_self _)) fun _ _ _ => traced_done
  | giveBack keyword value =>
    cases value with
    | none =>
      rw [execute]
      exact traced_done
    | some e =>
      rw [execute]
      exact .bind (traced_expr .first rfl) fun _ _ _ => traced_done
  | classDecl name superclass methods =>
    exact traced_class name superclass methods

theorem traced_executeAll (sts : List (Stmt Link)) :
    Traced h (.run (.stmts sts) (fuel + 1) depth chain s) s
      (executeAll h (fuel + 1) depth chain sts s) := by
  cases sts with
  | nil =>
    rw [executeAll]
    exact traced_done
  | cons st sts =>
    rw [executeAll]
    refine .bind (traced_stmt .first rfl) fun c s₁ hc => ?_
    cases c with
    | carryOn => exact traced_stmts (.stmt .first rfl hc rfl) rfl
    | returned v => exact traced_done

theorem traced_repeatWhile (condition : Expr Link) (body : Stmt Link) :
    Traced h (.run (.loop condition body) (fuel + 1) depth chain s) s
      (repeatWhile h (fuel + 1) depth chain condition body s) := by
  rw [repeatWhile]
  refine .bind (traced_expr .first rfl) fun v s₁ hv => traced_ite ?_ fun _ => traced_done
  intro htrue
  have hj : Node.next? (.loop condition body) 0 (.value v) = some 1 := if_pos htrue
  have hbody := Stage.expr .first rfl hv hj
  refine .bind (traced_stmt hbody rfl) fun c s₂ hc => ?_
  cases c with
  | carryOn => exact traced_loop (.stmt hbody rfl hc rfl) rfl
  | returned v => exact traced_done

end Statements

/-! ## Moments -/

/-- **What a moment leaves comes about in these ways.** -/
theorem Moment.traced {h : Host} {m : Moment} {s' : Store} (hl : m.leaves? h = some s') :
    Relation.ReflTransGen (Changes h m) m.store s' := by
  cases m with
  | run n fuel depth chain s =>
    cases fuel with
    | zero => exact absurd hl (by cases n <;> simp [Moment.leaves?, Node.run, evaluate, evaluateAll,
        execute, executeAll, repeatWhile, Outcome.map, Outcome.store?])
    | succ fuel =>
      cases n with
      | expr e => exact traced_map _ (traced_evaluate e) s' hl
      | exprs es => exact traced_map _ (traced_evaluateAll es) s' hl
      | stmt st => exact traced_map _ (traced_execute st) s' hl
      | stmts sts => exact traced_map _ (traced_executeAll sts) s' hl
      | loop condition body => exact traced_map _ (traced_repeatWhile condition body) s' hl
      | function f | method f => cases hl
  | apply f args fuel depth s =>
    cases fuel with
    | zero => exact absurd hl (by simp [Moment.leaves?, LoxKit.apply, Outcome.store?])
    | succ fuel => exact traced_apply f s' hl
  | invoke c args fuel depth s =>
    cases fuel with
    | zero => exact absurd hl (by simp [Moment.leaves?, LoxKit.invoke, Outcome.store?])
    | succ fuel => exact traced_invoke c s' hl
  | bind c o s => exact traced_bindMethod c o s' hl

/-- The stores in which the parts of a node begin come about in these ways. -/
theorem Stage.traced {h : Host} {n : Node Link} {fuel depth i : Nat} {chain : Chain} {s s₁ : Store}
    (hst : Stage h n fuel depth chain s i s₁) :
    Relation.ReflTransGen (Passes h (.run n (fuel + 1) depth chain s)) s s₁ := by
  induction hst with
  | first => exact .refl
  | next hi hn hr _ ih =>
    refine ih.tail (.called (.part hi hn) ?_)
    rw [Moment.leaves?, hr]
    rfl

/-- What a moment finds comes about in the ways of the moment that leads to it. -/
theorem Calls.traced {h : Host} {m m' : Moment} (hc : Calls h m m') :
    Relation.ReflTransGen (Passes h m) m.store m'.store := by
  cases hc with
  | part hst => exact hst.traced
  | block => exact .single (.pushed _)
  | @get object field fuel depth chain s s₁ o c ho =>
    have hcalls : Calls h (.run (.expr (.get object field)) (fuel + 1) depth chain s)
        (.run (.expr object) fuel depth chain s) := .part (i := 0) .first rfl
    have hl : Moment.leaves? h (.run (.expr object) fuel depth chain s) = some s₁ := by
      rw [Moment.leaves?, Node.run, ho]
      rfl
    have hp := Passes.called hcalls hl
    exact .single hp
  | super | closure => exact .refl
  | @call callee args paren fuel depth chain s s₁ s₂ f vs hf ha =>
    have hst : Stage h (.expr (.call callee args paren)) fuel depth chain s 1 s₁ :=
      .expr .first rfl hf rfl
    refine hst.traced.tail (.called (.part hst rfl) ?_)
    rw [Moment.leaves?, Node.run, ha]
    rfl
  | construct => exact .single (.aside rfl (size_push_object _) (Nat.le_refl _))
  | @initializer k args fuel depth s s₁ c c' hc hb =>
    have hcalls : Calls h (.apply (.ofClass k) args (fuel + 1) depth s)
        (.bind c ⟨s.objects.size, k⟩ { s with objects := s.objects.push .empty }) := .construct hc
    have hl : Moment.leaves? h (.bind c ⟨s.objects.size, k⟩
        { s with objects := s.objects.push .empty }) = some s₁ := by
      rw [Moment.leaves?, hb]
      rfl
    have hmade : Passes h (.apply (.ofClass k) args (fuel + 1) depth s) s
        { s with objects := s.objects.push .empty } :=
      .aside rfl (size_push_object s) (Nat.le_refl _)
    have hp := Passes.called hcalls hl
    exact .head hmade (.single hp)
  | body => exact .single (.pushed _)

end LoxKit
